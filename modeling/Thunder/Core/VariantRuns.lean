import Thunder.Core.VariantContainer

/-! The labels and the elements of `VariantContainer`s over whole runs of constructions, copies, moves
and changes. -/

namespace Thunder.Core.Variants

namespace State

open Run

variable {t t' : State} {i : Nat} {c : VariantContainer}

/-- Every container is sound, and no two share a node. -/
structure Sound (t : State) : Prop where
  slots : ∀ i c, t.containers i = some c → Slot.Sound ⟨t.memory, c⟩
  apart : ∀ i j c d, i ≠ j → t.containers i = some c → t.containers j = some d →
    ∀ a ∈ c.elements, a ∉ d.elements
  counted : ∀ i c, t.containers i = some c → i < t.count

theorem sound_start : start.Sound := ⟨nofun, nofun, nofun⟩

theorem Sound.bijective (h : t.Sound) (hi : t.containers i = some c) : c.Bijective t.memory :=
  (h.slots i c hi).bijective

theorem Sound.beside (h : t.Sound) {j : Nat} {d : VariantContainer} (hi : t.containers i = some c)
    (hj : t.containers j = some d) : Slot.Beside d ⟨t.memory, c⟩ := by
  refine ⟨h.slots j d hj, ?_⟩
  by_cases hij : i = j
  · subst hij
    exact Or.inl (Option.some.inj (hj.symm.trans hi))
  · exact Or.inr (h.apart j i d c (Ne.symm hij) hj hi)

/-- One container changes, or is new. -/
theorem Sound.update (h : t.Sound) {slot : Slot} {count : Nat} (hcount : t.count ≤ count)
    (hlt : i < count)
    (hfree : ∀ j d, j ≠ i → t.containers j = some d → ∀ a ∈ c.elements, a ∉ d.elements)
    (hevolves : Slot.Evolves ⟨t.memory, c⟩ slot) :
    Sound ⟨slot.memory, Function.update t.containers i (some slot.container), count⟩ := by
  have hold : ∀ j d, j ≠ i → t.containers j = some d →
      Slot.Sound ⟨slot.memory, d⟩ ∧ ∀ a ∈ slot.container.elements, a ∉ d.elements := by
    intro j d hji hd
    have hsound := h.slots j d hd
    constructor
    · apply Slot.Sound.congr hsound hevolves.fresh
      intro a ha
      exact congrArg _ (hevolves.frame a (hsound.bounded a ha)
        fun hmem => hfree j d hji hd a hmem ha)
    · intro a ha hmem
      rcases hevolves.elements a ha with ha' | ha'
      · exact hfree j d hji hd a ha' hmem
      · exact absurd (hsound.bounded a hmem) (not_lt.mpr ha')
  have hcases : ∀ j d, Function.update t.containers i (some slot.container) j = some d →
      (j = i ∧ d = slot.container) ∨ (j ≠ i ∧ t.containers j = some d) := by
    intro j d hd
    by_cases hji : j = i
    · subst hji
      rw [Function.update_self] at hd
      exact Or.inl ⟨rfl, (Option.some.inj hd).symm⟩
    · rw [Function.update_of_ne hji] at hd
      exact Or.inr ⟨hji, hd⟩
  refine ⟨fun j d hd => ?_, fun j k d e hjk hd he => ?_, fun j d hd => ?_⟩
  · rcases hcases j d hd with ⟨-, rfl⟩ | ⟨hji, hd'⟩
    · exact hevolves.sound
    · exact (hold j d hji hd').1
  · rcases hcases j d hd with ⟨rfl, rfl⟩ | ⟨hji, hd'⟩
    · rcases hcases k e he with ⟨rfl, -⟩ | ⟨hki, he'⟩
      · exact absurd rfl hjk
      · exact (hold k e hki he').2
    · rcases hcases k e he with ⟨rfl, rfl⟩ | ⟨hki, he'⟩
      · exact fun a ha hmem => (hold j d hji hd').2 a hmem ha
      · exact h.apart j k d e hjk hd' he'
  · rcases hcases j d hd with ⟨rfl, -⟩ | ⟨-, hd'⟩
    · exact hlt
    · exact lt_of_lt_of_le (h.counted j d hd') hcount

theorem Sound.put (h : t.Sound) (hi : t.containers i = some c) {slot : Slot}
    (hevolves : Slot.Evolves ⟨t.memory, c⟩ slot) : (t.put i slot).Sound :=
  h.update (le_refl _) (h.counted i c hi)
    (fun j d hji hd => h.apart i j c d (Ne.symm hji) hi hd) hevolves

theorem Sound.create (h : t.Sound) {slot : Slot}
    (hevolves : Slot.Evolves ⟨t.memory, .empty⟩ slot) : (t.create slot).Sound :=
  h.update (c := .empty) (Nat.le_succ _) (Nat.lt_succ_self _) (fun _ _ _ _ => nofun) hevolves

theorem Sound.within (h : t.Sound) {f : VariantContainer → Option State}
    (hf : ∀ c, t.containers i = some c → ∃ t', f c = some t' ∧ t'.Sound) :
    ∃ t', t.within i f = some t' ∧ t'.Sound := by
  unfold State.within
  cases hi : t.containers i with
  | none => exact ⟨t, rfl, h⟩
  | some c => exact hf c hi

theorem Sound.on (h : t.Sound) {f : Slot → Option Slot}
    (hf : ∀ c, t.containers i = some c →
      ∃ slot, f ⟨t.memory, c⟩ = some slot ∧ Slot.Evolves ⟨t.memory, c⟩ slot) :
    ∃ t', t.on i f = some t' ∧ t'.Sound := by
  apply h.within
  intro c hi
  obtain ⟨slot, hslot, hevolves⟩ := hf c hi
  exact ⟨t.put i slot, by rw [hslot]; rfl, h.put hi hevolves⟩

theorem Sound.destroy (h : t.Sound) (hi : t.containers i = some c) :
    Sound { t with
      memory := t.memory.free c.elements
      containers := Function.update t.containers i none } := by
  have hcases : ∀ j d, Function.update t.containers i none j = some d →
      j ≠ i ∧ t.containers j = some d := by
    intro j d hd
    by_cases hji : j = i
    · subst hji
      rw [Function.update_self] at hd
      exact nomatch hd
    · rw [Function.update_of_ne hji] at hd
      exact ⟨hji, hd⟩
  refine ⟨fun j d hd => ?_, fun j k d e hjk hd he => ?_, fun j d hd => ?_⟩
  · obtain ⟨hji, hd'⟩ := hcases j d hd
    exact Slot.Sound.congr (h.slots j d hd') (m := t.memory.free c.elements) (le_refl _)
      fun a ha => congrArg _ (if_neg (h.apart j i d c hji hd' hi a ha))
  · exact h.apart j k d e hjk (hcases j d hd).2 (hcases k e he).2
  · exact h.counted j d (hcases j d hd).2

theorem data_nil (h : Slot.Sound ⟨t.memory, c⟩) : c.data = [] ↔ c.elements = [] := by
  have hperm : c.data.Perm (c.elements.map fun a => ⟨a, a⟩) := h.registered
  constructor
  · intro hdata
    rw [hdata] at hperm
    exact List.map_eq_nil_iff.mp hperm.nil_eq.symm
  · intro helements
    rw [helements] at hperm
    exact hperm.eq_nil

/-- A container without labels and elements is moved without harm. -/
theorem empty_eq (h : Slot.Sound ⟨t.memory, c⟩) (hempty : c.elements = []) : c = .empty := by
  obtain ⟨data, elements⟩ := c
  simp only at hempty
  have hdata := (data_nil h).mpr hempty
  simp only at hdata
  rw [hdata, hempty]
  rfl

theorem put_self (hi : t.containers i = some c) : t.put i ⟨t.memory, c⟩ = t := by
  unfold State.put
  rw [← hi, Function.update_eq_self]

theorem Sound.move (h : t.Sound) {source : Nat} (hi : t.containers source = some c)
    (hempty : c.elements = []) :
    ((t.put source ⟨t.memory, { c with elements := [] }⟩).create
      ⟨t.memory, adopt .empty c.elements⟩).Sound := by
  obtain rfl := empty_eq (h.slots source c hi) hempty
  have hput := put_self hi
  show ((t.put source ⟨t.memory, .empty⟩).create _).Sound
  rw [hput]
  exact h.create (.refl (Slot.sound_empty _))

theorem Sound.moveAssign (h : t.Sound) {target source : Nat} {rhs : VariantContainer}
    (hi : t.containers target = some c) (hj : t.containers source = some rhs)
    (hc : c.elements = []) (hrhs : rhs.elements = []) :
    ((t.put source ⟨t.memory, { rhs with elements := [] }⟩).put target
      ⟨t.memory.free c.elements, adopt c rhs.elements⟩).Sound := by
  obtain rfl := empty_eq (h.slots target c hi) hc
  obtain rfl := empty_eq (h.slots source rhs hj) hrhs
  have hput := put_self hj
  show ((t.put source ⟨t.memory, .empty⟩).put target ⟨t.memory.free [], .empty⟩).Sound
  rw [hput]
  exact h.put hi (Slot.evolves_clear _)

/-- An operation that keeps the labels has a result, and the result is sound. -/
theorem Sound.perform (h : t.Sound) {operation : Operation}
    (hok : KeepsLabels (some t) operation) : ∃ t', t.perform operation = some t' ∧ t'.Sound := by
  have hkeeps := hok t rfl
  cases operation with
  | construct => exact ⟨_, rfl, h.create (.refl (Slot.sound_empty _))⟩
  | constructFromString members failed =>
    obtain ⟨slot, hslot, hevolves⟩ := Slot.fromString_evolves ⟨t.memory, .empty⟩ members failed
    exact ⟨t.create slot, by rw [State.perform, hslot]; rfl, h.create hevolves⟩
  | constructElements values =>
    exact ⟨_, rfl, h.create (Slot.constructElements_evolves t.memory values hkeeps)⟩
  | copy source =>
    apply h.within
    intro c hi
    obtain ⟨slot, hslot, hevolves⟩ := Slot.copy_evolves (h.slots source c hi)
    exact ⟨t.create slot, by rw [hslot]; rfl, h.create hevolves⟩
  | move source => exact h.within fun c hi => ⟨_, rfl, h.move hi (hkeeps c hi)⟩
  | assign target source =>
    exact h.within fun rhs hj =>
      h.on fun c hi => Slot.Sound.assign (h.slots target c hi) (h.beside hi hj)
  | moveAssign target source =>
    apply h.within
    intro c hi
    apply h.within
    intro rhs hj
    by_cases heq : target = source
    · exact ⟨t, if_pos heq, h⟩
    · obtain ⟨hc, hrhs⟩ := hkeeps c rhs hi hj heq
      exact ⟨_, if_neg heq, h.moveAssign hi hj hc hrhs⟩
  | set target fieldName value =>
    rw [State.perform]
    apply h.on
    intro c hi
    exact ⟨_, rfl, (h.slots target c hi).set fieldName value⟩
  | index target fieldName value =>
    rw [State.perform]
    apply h.on
    intro c hi
    exact ⟨_, rfl, (h.slots target c hi).index fieldName value⟩
  | remove target label =>
    rw [State.perform]
    apply h.on
    intro c hi
    exact ⟨_, (h.slots target c hi).remove (hkeeps c hi), .refl (h.slots target c hi)⟩
  | clear target =>
    rw [State.perform]
    apply h.on
    intro c hi
    exact ⟨_, rfl, Slot.evolves_clear _⟩
  | fromString target members failed =>
    rw [State.perform]
    apply h.on
    intro c hi
    exact Slot.fromString_evolves _ members failed
  | destroy target => exact h.within fun c hi => ⟨_, rfl, h.destroy hi⟩

/-- The run has a result so far, and it is sound. -/
def Held (s : Option State) : Prop := ∃ t, s = some t ∧ t.Sound

/-! ### What breaks the bijection -/

/-- Every entry of the argument becomes a node, whatever its key. -/
theorem constructElements_holds (m : Memory) (values : Elements) {entry : Text × Variant}
    (hentry : entry ∈ values.values) : ∃ a ∈ (Slot.constructElements m values).container.elements,
      (Slot.constructElements m values).memory.nodes a = some ⟨entry.1, entry.2⟩ := by
  have hloop : ∀ (l : List (Text × Variant)) (s : Slot),
      (∀ a ∈ s.container.elements, a < s.memory.fresh) → (l.map Prod.fst).Nodup →
      (∀ e ∈ l, s.find e.1 = none) → ∃ s', l.foldl (fun s e =>
        (s.emplace e.1 e.2).1.add (s.emplace e.1 e.2).2) s = s' ∧
      (∀ a ∈ s.container.elements,
        a ∈ s'.container.elements ∧ s'.memory.nodes a = s.memory.nodes a) ∧
      ∀ e ∈ l, ∃ a ∈ s'.container.elements, s'.memory.nodes a = some ⟨e.1, e.2⟩ := by
    intro l
    induction l with
    | nil => exact fun s _ _ _ => ⟨s, rfl, fun _ ha => ⟨ha, rfl⟩, (by rintro _ ⟨⟩)⟩
    | cons e l ih =>
      intro s hbounded hnodup hfind
      have hfirst := hfind e List.mem_cons_self
      rw [List.map_cons, List.nodup_cons] at hnodup
      have hnext : ∀ e' ∈ l, ((s.emplace e.1 e.2).1.add (s.emplace e.1 e.2).2).find e'.1 = none :=
        fun e' he' => Slot.find_add hbounded hfirst e.2 (hfind e' (List.mem_cons_of_mem _ he'))
          fun heq => hnodup.1 (heq ▸ List.mem_map_of_mem he')
      rw [Slot.emplace_of_none hfirst] at hnext
      have hbounded' : ∀ a ∈ s.container.elements ++ [s.memory.fresh], a < s.memory.fresh + 1 := by
        intro a ha
        rcases List.mem_append.mp ha with ha | ha
        · exact Nat.lt_succ_of_lt (hbounded a ha)
        · exact (List.mem_singleton.mp ha) ▸ Nat.lt_succ_self _
      obtain ⟨s', hs', hkept, hheld⟩ := ih _ hbounded' hnodup.2 hnext
      refine ⟨s', ?_, fun a ha => ?_, fun e' he' => ?_⟩
      · show List.foldl _ ((s.emplace e.1 e.2).1.add (s.emplace e.1 e.2).2) l = s'
        rw [Slot.emplace_of_none hfirst]
        exact hs'
      · obtain ⟨hmem, hnode⟩ := hkept a (List.mem_append_left _ ha)
        exact ⟨hmem, hnode.trans (Function.update_of_ne (ne_of_lt (hbounded a ha)) _ _)⟩
      · rcases List.mem_cons.mp he' with rfl | he'
        · obtain ⟨hmem, hnode⟩ :=
            hkept s.memory.fresh (List.mem_append_right _ (List.mem_singleton_self _))
          exact ⟨_, hmem, hnode.trans (Function.update_self _ _ _)⟩
        · exact hheld e' he'
  obtain ⟨s', hs', -, hheld⟩ := hloop values.values ⟨m, .empty⟩ (by rintro _ ⟨⟩) values.nodup
    fun _ _ => rfl
  rw [show Slot.constructElements m values = s' from hs']
  exact hheld entry hentry

theorem consistent_some {t : State} :
    Consistent (some t) ↔ ∀ i c, t.containers i = some c → c.Bijective t.memory := by
  unfold Consistent
  constructor
  · rintro ⟨t', ht', h⟩
    obtain rfl := Option.some.inj ht'
    exact h
  · exact fun h => ⟨t, rfl, h⟩

theorem Sound.within_some {f : VariantContainer → Option State} (hi : t.containers i = some c) :
    t.within i f = f c := by
  unfold State.within
  rw [hi]

theorem Sound.moved_empty (h : t.Sound) {source : Nat} (hi : t.containers source = some c)
    (hc : Consistent (t.perform (.move source))) : c.elements = [] := by
  rw [State.perform, Sound.within_some hi, consistent_some] at hc
  have hlt : source ≠ t.count := ne_of_lt (h.counted source c hi)
  have hsource : ((t.put source ⟨t.memory, { c with elements := [] }⟩).create
      ⟨t.memory, adopt .empty c.elements⟩).containers source =
      some { c with elements := [] } := by
    show Function.update (Function.update t.containers source _) t.count _ source = _
    rw [Function.update_of_ne hlt, Function.update_self]
  exact (data_nil (h.slots source c hi)).mp (hc source _ hsource).registered.eq_nil

theorem Sound.moveAssigned_empty (h : t.Sound) {target source : Nat} {rhs : VariantContainer}
    (hi : t.containers target = some c) (hj : t.containers source = some rhs)
    (hne : target ≠ source) (hc : Consistent (t.perform (.moveAssign target source))) :
    c.elements = [] ∧ rhs.elements = [] := by
  rw [State.perform, Sound.within_some hi, Sound.within_some hj, if_neg hne, consistent_some] at hc
  have hsource := (hc source { rhs with elements := [] } (by
    show Function.update (Function.update t.containers source _) target _ source = _
    rw [Function.update_of_ne hne.symm, Function.update_self])).registered.eq_nil
  have hrhs : rhs.elements = [] := (data_nil (h.slots source rhs hj)).mp hsource
  have htarget := (hc target (adopt c rhs.elements) (by
    show Function.update _ target _ target = _
    rw [Function.update_self])).registered
  refine ⟨?_, hrhs⟩
  rw [hrhs] at htarget
  exact (data_nil (h.slots target c hi)).mp (List.append_eq_nil_iff.mp htarget.eq_nil).1

theorem Sound.keepsLabels (h : t.Sound) {operation : Operation}
    (hc : Consistent (t.perform operation)) : KeepsLabels (some t) operation := by
  rintro _ ⟨⟩
  cases operation with
  | constructElements values =>
    intro entry hentry hzero
    obtain ⟨a, ha, hnode⟩ := constructElements_holds t.memory values hentry
    rw [State.perform, consistent_some] at hc
    obtain ⟨node, hnode', htext⟩ := (hc t.count _ (Function.update_self _ _ _)).live a ha
    obtain rfl := Option.some.inj (hnode'.symm.trans hnode)
    have hread : (t.create (Slot.constructElements t.memory values)).memory.text a =
        some (entry.1.takeWhile (· ≠ 0)) := congrArg (Option.map _) hnode
    have hfull := List.takeWhile_eq_self_iff.mp (Option.some.inj (hread.symm.trans htext)) 0 hzero
    simp at hfull
  | move source => exact fun c hi => h.moved_empty hi hc
  | moveAssign target source => exact fun c rhs hi hj hne => h.moveAssigned_empty hi hj hne hc
  | remove target label =>
    intro c hi
    cases hfind : (⟨t.memory, c⟩ : Slot).find label.text with
    | none => rfl
    | some a =>
      rw [State.perform, State.on, Sound.within_some hi,
        (h.slots target c hi).remove_present hfind] at hc
      obtain ⟨t', ht', -⟩ := hc
      exact nomatch ht'
  | _ => trivial

/-- Every state of a run is consistent exactly when every operation keeps the labels. -/
theorem consistent_iff_keepsLabels (operations : List Operation) :
    Always step Consistent (some start) operations ↔
      Meets step KeepsLabels (some start) operations := by
  have hkeep : ∀ s operation, Held s → KeepsLabels s operation → Held (step s operation) := by
    rintro _ operation ⟨t, rfl, ht⟩ hok
    exact ht.perform hok
  have hconsistent : ∀ s, Held s → Consistent s := by
    rintro _ ⟨t, rfl, ht⟩
    exact consistent_some.mpr fun i c hi => ht.bijective hi
  have hneeds : ∀ s operation, Held s → Consistent (step s operation) →
      KeepsLabels s operation := by
    rintro _ operation ⟨t, rfl, ht⟩ hc
    exact ht.keepsLabels hc
  exact always_iff_of_invariant hkeep hconsistent hneeds ⟨start, rfl, sound_start⟩

/-- The labels of a container that has been moved from stay behind: here one whose element is now in
another container. -/
theorem not_consistent_moved : ¬Always step Consistent (some start)
    [.construct, .set 0 ⟨[97], by decide⟩ ⟨true, [49]⟩, .move 0] := by
  intro h
  obtain ⟨t, ht, hc⟩ := h.last
  have hdata : (t.containers 0).map VariantContainer.data = some [⟨0, 0⟩] ∧
      (t.containers 0).map VariantContainer.elements = some [] := by
    obtain rfl := Option.some.inj ht
    exact ⟨rfl, rfl⟩
  obtain ⟨c, hi, hlabels⟩ := Option.map_eq_some_iff.mp hdata.1
  rw [hi, Option.map_some] at hdata
  have hperm := (hc 0 c hi).registered
  rw [hlabels, Option.some.inj hdata.2] at hperm
  exact nomatch hperm.eq_nil

end State

end Thunder.Core.Variants
