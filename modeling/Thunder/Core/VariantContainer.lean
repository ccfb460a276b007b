import Thunder.Library.Run
import Thunder.Core.Metadata
import Mathlib.Data.List.Nodup
import Mathlib.Data.List.TakeWhile
import Mathlib.Logic.Function.Basic

/-! `JSON::VariantContainer`: a map from keys to variants, and the list of labels by which the base
class `Container` finds, fills and serializes them.  A label is a pair of pointers into a node of a
map: to the characters of its key and to its element.  Nodes stay where they are when a map grows or
is moved, and are gone when they are erased; reading through a pointer to one that is gone is
undefined, and the model has no result for it. -/

namespace Thunder.Core.Variants

abbrev Address := Nat

/-- Of a `Variant` only its text and whether it is set matter here. -/
structure Variant where
  isSet : Bool
  value : Text

/-- The text `null`, set. -/
def Variant.default : Variant := ⟨true, [110, 117, 108, 108]⟩

/-- A node of the map `Elements`. -/
structure Node where
  key : Text
  value : Variant

/-- A field name or label as `const TCHAR[]`. -/
structure FieldName where
  text : Text
  no_zero : 0 ∉ text

/-- A map as the argument of the constructor from `Elements`. -/
structure Elements where
  values : List (Text × Variant)
  nodup : (values.map Prod.fst).Nodup

/-- The nodes of all maps, and the address of the next one. -/
structure Memory where
  nodes : Address → Option Node
  fresh : Address

namespace Memory

def allocate (m : Memory) (node : Node) : Memory :=
  ⟨Function.update m.nodes m.fresh (some node), m.fresh + 1⟩

def write (m : Memory) (a : Address) (value : Variant) : Memory :=
  { m with nodes := Function.update m.nodes a ((m.nodes a).map fun node => { node with value }) }

def free (m : Memory) (addresses : List Address) : Memory :=
  { m with nodes := fun a => if a ∈ addresses then none else m.nodes a }

/-- The characters at `first.c_str()`, up to the first zero. -/
def text (m : Memory) (label : Address) : Option Text :=
  (m.nodes label).map fun node => node.key.takeWhile (· ≠ 0)

end Memory

/-- A `JSONLabelValue`. -/
structure Label where
  label : Address
  element : Address
  deriving DecidableEq

/-! ### `Container` -/

namespace Container

/-- The loop of `Find`: the element of the first label that reads `label`. -/
def find (m : Memory) (label : Text) : List Label → Option (Option Address)
  | [] => some none
  | entry :: data =>
    (m.text entry.label).bind fun text =>
      if text = label then some (some entry.element) else find m label data

def hasLabel (m : Memory) (label : Text) (data : List Label) : Option Bool :=
  (find m label data).map Option.isSome

def remove (m : Memory) (label : Text) : List Label → Option (List Label)
  | [] => some []
  | entry :: data =>
    (m.text entry.label).bind fun text =>
      if text = label then some data else (remove m label data).map (entry :: ·)

/-- The keys that `Serialize` writes: those of the set elements, in the order of the labels. -/
def serializedKeys (m : Memory) : List Label → Option (List Text)
  | [] => some []
  | entry :: data =>
    (m.nodes entry.element).bind fun node =>
      if node.value.isSet then
        (m.text entry.label).bind fun text => (serializedKeys m data).map (text :: ·)
      else serializedKeys m data

end Container

/-! ### `VariantContainer` -/

/-- `_data` of the base class and the addresses of the nodes of `_elements`. -/
structure VariantContainer where
  data : List Label
  elements : List Address

def VariantContainer.empty : VariantContainer := ⟨[], []⟩

/-- A container and the memory it lives in. -/
structure Slot where
  memory : Memory
  container : VariantContainer

namespace Slot

/-- `_elements.find`. -/
def find (s : Slot) (key : Text) : Option Address :=
  s.container.elements.find? fun a => (s.memory.nodes a).map Node.key = some key

/-- `_elements.emplace`. -/
def emplace (s : Slot) (key : Text) (value : Variant) : Slot × Address :=
  match s.find key with
  | some a => (s, a)
  | none =>
    (⟨s.memory.allocate ⟨key, value⟩,
      { s.container with elements := s.container.elements ++ [s.memory.fresh] }⟩, s.memory.fresh)

/-- `Container::Add(index->first.c_str(), &(index->second))`. -/
def add (s : Slot) (a : Address) : Slot :=
  { s with container.data := s.container.data ++ [⟨a, a⟩] }

def write (s : Slot) (a : Address) (value : Variant) : Slot :=
  { s with memory := s.memory.write a value }

def set (s : Slot) (fieldName : FieldName) (value : Variant) : Slot :=
  match s.find fieldName.text with
  | some a => s.write a value
  | none =>
    let (s, a) := s.emplace fieldName.text value
    s.add a

/-- `operator[]`. -/
def index (s : Slot) (fieldName : FieldName) : Slot × Address :=
  match s.find fieldName.text with
  | some a => (s, a)
  | none =>
    let (s, a) := s.emplace fieldName.text .default
    (s.add a, a)

def request (s : Slot) (label : FieldName) : Slot :=
  let (s, a) := s.emplace label.text .default
  s.add a

/-- `Container::Find`, with the search from the end after a `Request`. -/
def locate (s : Slot) (label : FieldName) : Option (Slot × Option Address) :=
  (Container.find s.memory label.text s.container.data).bind fun
    | some a => some (s, some a)
    | none =>
      let s := s.request label
      (Container.find s.memory label.text s.container.data.reverse).map fun a => (s, a)

def clear (s : Slot) : Slot := ⟨s.memory.free s.container.elements, .empty⟩

/-- The erasure of one node. -/
def erase (s : Slot) (a : Address) : Slot :=
  ⟨s.memory.free [a], { s.container with elements := s.container.elements.erase a }⟩

def remove (s : Slot) (label : FieldName) : Option Slot :=
  let s := match s.find label.text with
    | some a => s.erase a
    | none => s
  (Container.remove s.memory label.text s.container.data).map fun data =>
    { s with container.data := data }

/-- One member of a text that is parsed. -/
def member (s : Slot) (label : FieldName) (value : Variant) : Option Slot :=
  (s.locate label).map fun
    | (s, some a) => s.write a value
    | (s, none) => s

/-- `FromString` of a text in which the parser comes to `members`; whatever the text, it touches the
container through `Find`, the elements found, and `Clear`. -/
def fromString (s : Slot) (members : List (FieldName × Variant)) (failed : Bool) : Option Slot :=
  (members.foldlM (fun (s : Slot) (label, value) => s.member label value) s.clear).map
    fun (s : Slot) => if failed then s.clear else s

def constructElements (m : Memory) (values : Elements) : Slot :=
  values.values.foldl (fun s (key, value) =>
    let (s, a) := s.emplace key value
    s.add a) ⟨m, .empty⟩

/-- The copy of the map, before any label. -/
def copyElements (m : Memory) (source : VariantContainer) : Option Slot :=
  source.elements.foldlM (fun s a => (s.memory.nodes a).map fun node =>
    (s.emplace node.key node.value).1) ⟨m, .empty⟩

/-- The copy constructor: the elements whose label the original has are registered. -/
def copy (m : Memory) (source : VariantContainer) : Option Slot :=
  (copyElements m source).bind fun s =>
    s.container.elements.foldlM (fun s a =>
      (s.memory.text a).bind fun label =>
        (Container.hasLabel s.memory label source.data).map fun registered =>
          if ((⟨s.memory, source⟩ : Slot).find label).isSome && registered then s.add a else s) s

/-- The first loop of the copy assignment: what the right-hand side has is taken over, the rest is
removed. -/
def combine (s : Slot) (rhs : VariantContainer) (a : Address) : Option Slot :=
  (s.memory.text a).bind fun label =>
    match (⟨s.memory, rhs⟩ : Slot).find label with
    | some b => (s.memory.nodes b).map fun node => s.write a node.value
    | none => (Container.remove s.memory label s.container.data).map fun data =>
        ({ s with container.data := data } : Slot).erase a

/-- The second loop: what is missing is added. -/
def complete (s : Slot) (b : Address) : Option Slot :=
  (s.memory.nodes b).bind fun node =>
    (s.memory.text b).map fun label =>
      match s.find label with
      | some _ => s
      | none =>
        let (s, a) := s.emplace node.key node.value
        s.add a

/-- The copy assignment. -/
def assign (s : Slot) (rhs : VariantContainer) : Option Slot :=
  (s.container.elements.foldlM (fun (s : Slot) a => s.combine rhs a) s).bind fun s =>
    rhs.elements.foldlM complete s

end Slot

/-! ### Any number of containers -/

/-- The containers by the order of their construction; those that are destroyed are gone. -/
structure State where
  memory : Memory
  containers : Nat → Option VariantContainer
  count : Nat

inductive Operation
  | construct
  | constructFromString (members : List (FieldName × Variant)) (failed : Bool)
  | constructElements (values : Elements)
  | copy (source : Nat)
  | move (source : Nat)
  | assign (target source : Nat)
  | moveAssign (target source : Nat)
  | set (target : Nat) (fieldName : FieldName) (value : Variant)
  | index (target : Nat) (fieldName : FieldName) (value : Variant)
  | remove (target : Nat) (label : FieldName)
  | clear (target : Nat)
  | fromString (target : Nat) (members : List (FieldName × Variant)) (failed : Bool)
  | destroy (target : Nat)

namespace State

def start : State := ⟨⟨fun _ => none, 0⟩, fun _ => none, 0⟩

def create (s : State) (slot : Slot) : State :=
  ⟨slot.memory, Function.update s.containers s.count (some slot.container), s.count + 1⟩

def put (s : State) (i : Nat) (slot : Slot) : State :=
  { s with memory := slot.memory, containers := Function.update s.containers i slot.container }

/-- Nothing can be done with a container that is not there. -/
def within (s : State) (i : Nat) (f : VariantContainer → Option State) : Option State :=
  match s.containers i with
  | none => some s
  | some c => f c

/-- An operation on one container. -/
def on (s : State) (i : Nat) (f : Slot → Option Slot) : Option State :=
  s.within i fun c => (f ⟨s.memory, c⟩).map (s.put i)

/-- The labels of a map that has been moved here. -/
def adopt (c : VariantContainer) (elements : List Address) : VariantContainer :=
  ⟨c.data ++ elements.map fun a => ⟨a, a⟩, elements⟩

def perform (s : State) : Operation → Option State
  | .construct => some (s.create ⟨s.memory, .empty⟩)
  | .constructFromString members failed =>
    ((⟨s.memory, .empty⟩ : Slot).fromString members failed).map s.create
  | .constructElements values => some (s.create (Slot.constructElements s.memory values))
  | .copy source => s.within source fun c => (Slot.copy s.memory c).map s.create
  | .move source =>
    s.within source fun c =>
      some ((s.put source ⟨s.memory, { c with elements := [] }⟩).create
        ⟨s.memory, adopt .empty c.elements⟩)
  | .assign target source => s.within source fun rhs => s.on target fun slot => slot.assign rhs
  | .moveAssign target source =>
    s.within target fun c => s.within source fun rhs =>
      if target = source then some s
      else
        some ((s.put source ⟨s.memory, { rhs with elements := [] }⟩).put target
          ⟨s.memory.free c.elements, adopt c rhs.elements⟩)
  | .set target fieldName value => s.on target fun slot => some (slot.set fieldName value)
  | .index target fieldName value =>
    s.on target fun slot =>
      let (slot, a) := slot.index fieldName
      some (slot.write a value)
  | .remove target label => s.on target fun slot => slot.remove label
  | .clear target => s.on target fun slot => some slot.clear
  | .fromString target members failed => s.on target fun slot => slot.fromString members failed
  | .destroy target =>
    s.within target fun c =>
      some { s with
        memory := s.memory.free c.elements
        containers := Function.update s.containers target none }

/-- A run; `none` is what follows an undefined read. -/
def step (s : Option State) (operation : Operation) : Option State :=
  s.bind (perform · operation)

end State

/-! ### The invariant -/

/-- The labels of a container and its elements are in bijection: each label points to the key and
the element of one node of the map, each node has one label, the keys are distinct and read in full
through their labels, and `Serialize` writes the keys of the set elements, each once. -/
structure VariantContainer.Bijective (m : Memory) (c : VariantContainer) : Prop where
  registered : c.data.Perm (c.elements.map fun a => ⟨a, a⟩)
  live : ∀ a ∈ c.elements, ∃ node, m.nodes a = some node ∧ m.text a = some node.key
  keys : (c.elements.map fun a => (m.nodes a).map Node.key).Nodup
  serialized : ∃ written, Container.serializedKeys m c.data = some written ∧ written.Nodup ∧
    ∀ key, key ∈ written ↔
      ∃ a ∈ c.elements, ∃ value, m.nodes a = some ⟨key, value⟩ ∧ value.isSet = true

/-- Every container that lives is consistent. -/
def State.Consistent (s : Option State) : Prop :=
  ∃ t, s = some t ∧ ∀ i c, t.containers i = some c → c.Bijective t.memory

/-- The operations that keep the two lists together. -/
def State.KeepsLabels (s : Option State) (operation : Operation) : Prop :=
  ∀ t, s = some t →
    match operation with
    | .constructElements values => ∀ entry ∈ values.values, 0 ∉ entry.1
    | .move source => ∀ c, t.containers source = some c → c.elements = []
    | .moveAssign target source =>
      ∀ c rhs, t.containers target = some c → t.containers source = some rhs →
        target ≠ source → c.elements = [] ∧ rhs.elements = []
    | .remove target label =>
      ∀ c, t.containers target = some c → (⟨t.memory, c⟩ : Slot).find label.text = none
    | _ => True

/-! ### One container -/

theorem takeWhile_ne_zero {text : Text} (h : 0 ∉ text) : text.takeWhile (· ≠ 0) = text := by
  rw [List.takeWhile_eq_self_iff]
  intro b hb
  have hne : b ≠ 0 := fun h0 => h (h0 ▸ hb)
  simpa using hne

namespace Slot

variable {s s' s'' : Slot} {a : Address} {key : Text}

/-- `Bijective` without what follows from the rest, and no address is ahead of the memory. -/
structure Sound (s : Slot) : Prop where
  registered : s.container.data.Perm (s.container.elements.map fun a => ⟨a, a⟩)
  live : ∀ a ∈ s.container.elements,
    ∃ node, s.memory.nodes a = some node ∧ s.memory.text a = some node.key
  keys : (s.container.elements.map fun a => (s.memory.nodes a).map Node.key).Nodup
  bounded : ∀ a ∈ s.container.elements, a < s.memory.fresh

/-- A change of one container: it stays sound, takes no node of another one, and leaves the nodes of
the others alone. -/
structure Evolves (s s' : Slot) : Prop where
  sound : s'.Sound
  fresh : s.memory.fresh ≤ s'.memory.fresh
  elements : ∀ a ∈ s'.container.elements, a ∈ s.container.elements ∨ s.memory.fresh ≤ a
  frame : ∀ a < s.memory.fresh, a ∉ s.container.elements → s'.memory.nodes a = s.memory.nodes a

theorem Evolves.refl (h : s.Sound) : Evolves s s :=
  ⟨h, le_refl _, fun _ ha => Or.inl ha, fun _ _ _ => rfl⟩

theorem Evolves.trans (h : Evolves s s') (h' : Evolves s' s'') : Evolves s s'' where
  sound := h'.sound
  fresh := le_trans h.fresh h'.fresh
  elements := by
    intro a ha
    rcases h'.elements a ha with ha' | ha'
    · exact h.elements a ha'
    · exact Or.inr (le_trans h.fresh ha')
  frame := by
    intro a hlt hnot
    have hnot' : a ∉ s'.container.elements := by
      intro ha
      rcases h.elements a ha with ha' | ha'
      · exact hnot ha'
      · exact absurd hlt (not_lt.mpr ha')
    rw [h'.frame a (lt_of_lt_of_le hlt h.fresh) hnot', h.frame a hlt hnot]

theorem Sound.nodup (h : s.Sound) : s.container.elements.Nodup := h.keys.of_map

theorem Sound.unique (h : s.Sound) {b : Address} (ha : a ∈ s.container.elements)
    (hb : b ∈ s.container.elements)
    (heq : (s.memory.nodes a).map Node.key = (s.memory.nodes b).map Node.key) : a = b :=
  List.inj_on_of_nodup_map h.keys ha hb heq

theorem Sound.text (h : s.Sound) (ha : a ∈ s.container.elements) :
    s.memory.text a = (s.memory.nodes a).map Node.key := by
  obtain ⟨node, hnode, htext⟩ := h.live a ha
  rw [htext, hnode]
  rfl

theorem Sound.no_zero (h : s.Sound) (ha : a ∈ s.container.elements) {node : Node}
    (hnode : s.memory.nodes a = some node) : 0 ∉ node.key := by
  obtain ⟨node', hnode', htext⟩ := h.live a ha
  obtain rfl : node = node' := Option.some.inj (hnode.symm.trans hnode')
  rw [Memory.text, hnode, Option.map_some] at htext
  intro hzero
  have hall := List.takeWhile_eq_self_iff.mp (Option.some.inj htext) 0 hzero
  simp at hall

theorem Sound.find_iff (h : s.Sound) : s.find key = some a ↔
    a ∈ s.container.elements ∧ (s.memory.nodes a).map Node.key = some key := by
  unfold find
  constructor
  · intro hfind
    exact ⟨List.mem_of_find?_eq_some hfind, by simpa using List.find?_some hfind⟩
  · rintro ⟨ha, hkey⟩
    cases hfind : s.container.elements.find? fun a => (s.memory.nodes a).map Node.key = some key with
    | none => exact absurd hkey (by simpa using List.find?_eq_none.mp hfind a ha)
    | some b =>
      have hb : (s.memory.nodes b).map Node.key = some key := by simpa using List.find?_some hfind
      rw [h.unique ha (List.mem_of_find?_eq_some hfind) (hkey.trans hb.symm)]

theorem Sound.find_none (h : s.Sound) (hfind : s.find key = none) {a : Address}
    (ha : a ∈ s.container.elements) : (s.memory.nodes a).map Node.key ≠ some key := by
  intro hkey
  rw [h.find_iff.mpr ⟨ha, hkey⟩] at hfind
  exact nomatch hfind

/-- Labels that point into nodes of the map are read without harm. -/
theorem Sound.mem_data (h : s.Sound) {entry : Label} (hentry : entry ∈ s.container.data) :
    entry.label ∈ s.container.elements ∧ entry.element = entry.label := by
  obtain ⟨a, ha, rfl⟩ := List.mem_map.mp (h.registered.subset hentry)
  exact ⟨ha, rfl⟩

/-- The search through the labels finds what the map finds. -/
theorem Sound.find_data (h : s.Sound) {data : List Label} (hperm : data.Perm s.container.data)
    (key : Text) : Container.find s.memory key data = some (s.find key) := by
  have hread : ∀ rest : List Label, rest ⊆ s.container.data →
      Container.find s.memory key rest = some ((rest.map Label.label).find? fun a =>
        (s.memory.nodes a).map Node.key = some key) := by
    intro rest hsub
    induction rest with
    | nil => rfl
    | cons entry rest ih =>
      obtain ⟨ha, helement⟩ := h.mem_data (hsub List.mem_cons_self)
      obtain ⟨node, hnode, htext⟩ := h.live _ ha
      rw [Container.find, htext, Option.bind_some, List.map_cons, List.find?_cons,
        ih (fun _ hx => hsub (List.mem_cons_of_mem _ hx)), hnode]
      by_cases heq : node.key = key
      · simp [heq, helement]
      · simp [heq]
  rw [hread data hperm.subset]
  congr 1
  have hmem : ∀ a, a ∈ data.map Label.label ↔ a ∈ s.container.elements := by
    intro a
    have hperm' := (hperm.trans h.registered).map Label.label
    rw [List.map_map] at hperm'
    rw [hperm'.mem_iff]
    exact iff_of_eq (congrArg (a ∈ ·) (List.map_id _))
  cases hfind : s.find key with
  | none =>
    rw [List.find?_eq_none]
    intro a ha
    simpa using h.find_none hfind ((hmem a).mp ha)
  | some a =>
    obtain ⟨ha, hkey⟩ := h.find_iff.mp hfind
    cases hfirst : (data.map Label.label).find? fun a =>
        (s.memory.nodes a).map Node.key = some key with
    | none => exact absurd hkey (by simpa using List.find?_eq_none.mp hfirst a ((hmem a).mpr ha))
    | some b =>
      have hb : (s.memory.nodes b).map Node.key = some key := by simpa using List.find?_some hfirst
      rw [h.unique ((hmem b).mp (List.mem_of_find?_eq_some hfirst)) ha (hb.trans hkey.symm)]

theorem Sound.remove_data (h : s.Sound) (ha : a ∈ s.container.elements)
    (hkey : s.memory.text a = some key) :
    Container.remove s.memory key s.container.data = some (s.container.data.erase ⟨a, a⟩) := by
  have hremove : ∀ rest : List Label, rest ⊆ s.container.data →
      Container.remove s.memory key rest = some (rest.erase ⟨a, a⟩) := by
    intro rest hsub
    induction rest with
    | nil => rfl
    | cons entry rest ih =>
      obtain ⟨hentry, helement⟩ := h.mem_data (hsub List.mem_cons_self)
      obtain ⟨node, hnode, htext⟩ := h.live _ hentry
      rw [Container.remove, htext, Option.bind_some]
      by_cases heq : entry = ⟨a, a⟩
      · subst heq
        rw [htext] at hkey
        rw [if_pos (Option.some.inj hkey), List.erase_cons_head]
      · have hne : node.key ≠ key := by
          intro hsame
          apply heq
          have hlabel : entry.label = a := by
            apply h.unique hentry ha
            rw [← h.text hentry, ← h.text ha, htext, hkey, hsame]
          obtain ⟨label, element⟩ := entry
          simp only at helement hlabel
          rw [helement, hlabel]
        rw [if_neg hne, ih (fun _ hx => hsub (List.mem_cons_of_mem _ hx)),
          List.erase_cons_tail (by simpa using heq)]
        rfl
  exact hremove _ (List.Subset.refl _)

theorem Sound.remove_absent (h : s.Sound) (hfind : s.find key = none) :
    Container.remove s.memory key s.container.data = some s.container.data := by
  have hremove : ∀ rest : List Label, rest ⊆ s.container.data →
      Container.remove s.memory key rest = some rest := by
    intro rest hsub
    induction rest with
    | nil => rfl
    | cons entry rest ih =>
      obtain ⟨hentry, -⟩ := h.mem_data (hsub List.mem_cons_self)
      obtain ⟨node, hnode, htext⟩ := h.live _ hentry
      have hne : node.key ≠ key := by
        intro hsame
        exact h.find_none hfind hentry (by rw [hnode, Option.map_some, hsame])
      rw [Container.remove, htext, Option.bind_some, if_neg hne,
        ih (fun _ hx => hsub (List.mem_cons_of_mem _ hx))]
      rfl
  exact hremove _ (List.Subset.refl _)

/-- The element that a label points to is set. -/
def setEntry (m : Memory) (entry : Label) : Bool :=
  (m.nodes entry.label).any fun node => node.value.isSet

theorem Sound.serializedKeys (h : s.Sound) : ∃ written,
    Container.serializedKeys s.memory s.container.data = some written ∧
      written.map some = (s.container.data.filter (setEntry s.memory)).map fun entry =>
        (s.memory.nodes entry.label).map Node.key := by
  have hwrite : ∀ rest : List Label, rest ⊆ s.container.data → ∃ written,
      Container.serializedKeys s.memory rest = some written ∧
        written.map some = (rest.filter (setEntry s.memory)).map fun entry =>
          (s.memory.nodes entry.label).map Node.key := by
    intro rest hsub
    induction rest with
    | nil => exact ⟨[], rfl, rfl⟩
    | cons entry rest ih =>
      obtain ⟨hentry, helement⟩ := h.mem_data (hsub List.mem_cons_self)
      obtain ⟨node, hnode, htext⟩ := h.live _ hentry
      obtain ⟨written, hrest, hwritten⟩ := ih (fun _ hx => hsub (List.mem_cons_of_mem _ hx))
      rw [Container.serializedKeys, helement, hnode, Option.bind_some, htext, Option.bind_some,
        hrest]
      by_cases hset : node.value.isSet
      · refine ⟨node.key :: written, by rw [if_pos hset]; rfl, ?_⟩
        rw [List.filter_cons_of_pos (by simp [setEntry, hnode, hset]), List.map_cons, List.map_cons,
          hwritten, hnode]
        rfl
      · refine ⟨written, if_neg hset, ?_⟩
        rw [List.filter_cons_of_neg (by simp [setEntry, hnode, hset]), hwritten]
  exact hwrite _ (List.Subset.refl _)

theorem Sound.bijective (h : s.Sound) : s.container.Bijective s.memory := by
  obtain ⟨written, hwritten, hkeys⟩ := h.serializedKeys
  have hdata : (s.container.data.map fun entry =>
      (s.memory.nodes entry.label).map Node.key).Nodup := by
    have hperm := h.registered.map fun entry => (s.memory.nodes entry.label).map Node.key
    rw [List.map_map] at hperm
    exact hperm.nodup_iff.mpr h.keys
  refine ⟨h.registered, h.live, h.keys, written, hwritten, ?_, fun key => ?_⟩
  · apply List.Nodup.of_map some
    rw [hkeys]
    exact hdata.sublist (List.filter_sublist.map _)
  · have hsome : key ∈ written ↔ some key ∈ written.map some := by simp
    rw [hsome, hkeys, List.mem_map]
    constructor
    · rintro ⟨entry, hentry, hkey⟩
      obtain ⟨hdata', hset⟩ := List.mem_filter.mp hentry
      obtain ⟨node, hnode, rfl⟩ := Option.map_eq_some_iff.mp hkey
      exact ⟨entry.label, (h.mem_data hdata').1, node.value, hnode,
        by simpa [setEntry, hnode] using hset⟩
    · rintro ⟨a, ha, value, hnode, hset⟩
      have hentry : (⟨a, a⟩ : Label) ∈ s.container.data :=
        h.registered.mem_iff.mpr (List.mem_map.mpr ⟨a, ha, rfl⟩)
      exact ⟨⟨a, a⟩, List.mem_filter.mpr ⟨hentry, by simp [setEntry, hnode, hset]⟩,
        by rw [hnode]; rfl⟩

/-! ### The steps of an operation -/

theorem sound_empty (m : Memory) : Sound ⟨m, .empty⟩ :=
  ⟨List.Perm.refl _, nofun, List.nodup_nil, nofun⟩

theorem text_congr {m m' : Memory}
    (h : (m'.nodes a).map Node.key = (m.nodes a).map Node.key) : m'.text a = m.text a := by
  have htext : ∀ m : Memory, m.text a =
      ((m.nodes a).map Node.key).map fun key => key.takeWhile (· ≠ 0) := by
    intro m
    rw [Option.map_map]
    rfl
  rw [htext, htext, h]

/-- Only the keys of its own nodes matter to a container. -/
theorem Sound.congr (h : s.Sound) {m : Memory} (hfresh : s.memory.fresh ≤ m.fresh)
    (hkeys : ∀ a ∈ s.container.elements,
      (m.nodes a).map Node.key = (s.memory.nodes a).map Node.key) : Sound ⟨m, s.container⟩ where
  registered := h.registered
  live := by
    intro a ha
    obtain ⟨node, hnode, htext⟩ := h.live a ha
    have hkey := hkeys a ha
    rw [hnode] at hkey
    obtain ⟨node', hnode', hsame⟩ := Option.map_eq_some_iff.mp hkey
    exact ⟨node', hnode', by rw [text_congr (hkeys a ha), htext, hsame]⟩
  keys := by
    have hmap : (s.container.elements.map fun a => (m.nodes a).map Node.key) =
        s.container.elements.map fun a => (s.memory.nodes a).map Node.key :=
      List.map_congr_left hkeys
    show (s.container.elements.map fun a => (m.nodes a).map Node.key).Nodup
    rw [hmap]
    exact h.keys
  bounded := fun a ha => lt_of_lt_of_le (h.bounded a ha) hfresh

theorem Sound.write (h : s.Sound) (ha : a ∈ s.container.elements) (value : Variant) :
    Evolves s (s.write a value) where
  sound := by
    refine Sound.congr h (m := s.memory.write a value) (le_refl _) fun b _ => ?_
    simp only [Memory.write]
    by_cases hb : b = a
    · subst hb
      rw [Function.update_self, Option.map_map]
      rfl
    · rw [Function.update_of_ne hb]
  fresh := le_refl _
  elements := fun _ hb => Or.inl hb
  frame := by
    intro b _ hnot
    have hne : b ≠ a := fun heq => hnot (heq ▸ ha)
    exact Function.update_of_ne hne _ _

theorem emplace_of_none (hfind : s.find key = none) (value : Variant) :
    s.emplace key value = (⟨s.memory.allocate ⟨key, value⟩,
      { s.container with elements := s.container.elements ++ [s.memory.fresh] }⟩,
      s.memory.fresh) := by
  unfold emplace
  rw [hfind]

/-- A new key, with its label. -/
theorem Sound.emplace_add (h : s.Sound) (hfind : s.find key = none) (hzero : 0 ∉ key)
    (value : Variant) : Evolves s ((s.emplace key value).1.add (s.emplace key value).2) := by
  rw [emplace_of_none hfind]
  have hold : ∀ a ∈ s.container.elements,
      (s.memory.allocate ⟨key, value⟩).nodes a = s.memory.nodes a := fun a ha =>
    Function.update_of_ne (ne_of_lt (h.bounded a ha)) _ _
  have hnew : (s.memory.allocate ⟨key, value⟩).nodes s.memory.fresh = some ⟨key, value⟩ :=
    Function.update_self _ _ _
  have hbefore : Sound ⟨s.memory.allocate ⟨key, value⟩, s.container⟩ :=
    h.congr (Nat.le_succ _) fun a ha => by rw [hold a ha]
  refine ⟨⟨?_, ?_, ?_, ?_⟩, Nat.le_succ _, ?_, ?_⟩
  · show (s.container.data ++ _).Perm ((s.container.elements ++ [s.memory.fresh]).map _)
    rw [List.map_append]
    exact h.registered.append_right _
  · intro a ha
    rcases List.mem_append.mp ha with ha | ha
    · exact hbefore.live a ha
    · obtain rfl := List.mem_singleton.mp ha
      refine ⟨_, hnew, ?_⟩
      show ((s.memory.allocate ⟨key, value⟩).nodes s.memory.fresh).map _ = _
      rw [hnew, Option.map_some, takeWhile_ne_zero hzero]
  · show ((s.container.elements ++ [s.memory.fresh]).map fun a =>
        ((s.memory.allocate ⟨key, value⟩).nodes a).map Node.key).Nodup
    rw [List.map_append, List.nodup_append]
    refine ⟨hbefore.keys, List.nodup_singleton _, ?_⟩
    intro x hx y hy
    obtain ⟨a, ha, rfl⟩ := List.mem_map.mp hx
    obtain rfl := List.mem_singleton.mp hy
    simp only [hnew, hold a ha]
    exact h.find_none hfind ha
  · intro a ha
    rcases List.mem_append.mp ha with ha | ha
    · exact hbefore.bounded a ha
    · obtain rfl := List.mem_singleton.mp ha
      exact Nat.lt_succ_self _
  · intro a ha
    rcases List.mem_append.mp ha with ha | ha
    · exact Or.inl ha
    · exact Or.inr (List.mem_singleton.mp ha).ge
  · intro a hlt _
    exact Function.update_of_ne (ne_of_lt hlt) _ _

theorem evolves_clear (s : Slot) : Evolves s s.clear where
  sound := sound_empty _
  fresh := le_refl _
  elements := nofun
  frame := fun _ _ hnot => if_neg hnot

/-- A node goes together with its label. -/
theorem Sound.drop (h : s.Sound) (ha : a ∈ s.container.elements) :
    Evolves s (({ s with container.data := s.container.data.erase ⟨a, a⟩ } : Slot).erase a) := by
  have hkeep : ∀ b ∈ s.container.elements.erase a,
      b ∈ s.container.elements ∧ (s.memory.free [a]).nodes b = s.memory.nodes b := by
    intro b hb
    have hne : b ≠ a := fun heq => h.nodup.not_mem_erase (heq ▸ hb)
    exact ⟨List.mem_of_mem_erase hb, if_neg (by simpa using hne)⟩
  refine ⟨⟨?_, ?_, ?_, ?_⟩, le_refl _, fun b hb => Or.inl (hkeep b hb).1, ?_⟩
  · show (s.container.data.erase ⟨a, a⟩).Perm ((s.container.elements.erase a).map _)
    rw [List.map_erase (f := fun a => (⟨a, a⟩ : Label)) (by rintro x y ⟨⟩; rfl)]
    exact h.registered.erase _
  · intro b hb
    obtain ⟨hmem, hnode⟩ := hkeep b hb
    obtain ⟨node, hnode', htext⟩ := h.live b hmem
    refine ⟨node, hnode.trans hnode', ?_⟩
    rw [← htext]
    exact text_congr (congrArg (Option.map Node.key) hnode)
  · show ((s.container.elements.erase a).map fun b =>
      ((s.memory.free [a]).nodes b).map Node.key).Nodup
    have hmap : ((s.container.elements.erase a).map fun b =>
        ((s.memory.free [a]).nodes b).map Node.key) =
        (s.container.elements.erase a).map fun b => (s.memory.nodes b).map Node.key :=
      List.map_congr_left fun b hb => by rw [(hkeep b hb).2]
    rw [hmap]
    exact h.keys.sublist ((List.erase_sublist).map _)
  · exact fun b hb => h.bounded b (hkeep b hb).1
  · intro b _ hnot
    have hne : b ≠ a := fun heq => hnot (heq ▸ ha)
    exact if_neg (by simpa using hne)

/-! ### The operations on one container -/

/-- A loop whose body changes the container soundly changes it soundly. -/
theorem evolves_foldlM {α : Type} {body : Slot → α → Option Slot} (l : List α)
    (hbody : ∀ s x, s.Sound → x ∈ l → ∃ s', body s x = some s' ∧ Evolves s s') (h : s.Sound) :
    ∃ s', l.foldlM body s = some s' ∧ Evolves s s' := by
  induction l generalizing s with
  | nil => exact ⟨s, rfl, .refl h⟩
  | cons x l ih =>
    obtain ⟨s', hs', hevolves⟩ := hbody s x h List.mem_cons_self
    obtain ⟨s'', hs'', hrest⟩ :=
      ih (fun s y hs hy => hbody s y hs (List.mem_cons_of_mem _ hy)) hevolves.sound
    exact ⟨s'', by rw [List.foldlM_cons, hs']; exact hs'', hevolves.trans hrest⟩

theorem Sound.set (h : s.Sound) (fieldName : FieldName) (value : Variant) :
    Evolves s (s.set fieldName value) := by
  unfold Slot.set
  cases hfind : s.find fieldName.text with
  | some a => exact h.write (h.find_iff.mp hfind).1 value
  | none => exact h.emplace_add hfind fieldName.no_zero value

theorem Sound.index (h : s.Sound) (fieldName : FieldName) (value : Variant) :
    Evolves s ((s.index fieldName).1.write (s.index fieldName).2 value) := by
  unfold Slot.index
  cases hfind : s.find fieldName.text with
  | some a => exact h.write (h.find_iff.mp hfind).1 value
  | none =>
    have hadd := h.emplace_add hfind fieldName.no_zero .default
    apply hadd.trans
    apply hadd.sound.write
    rw [emplace_of_none hfind]
    exact List.mem_append_right _ (List.mem_singleton_self _)

theorem Sound.request (h : s.Sound) {label : FieldName} (hfind : s.find label.text = none) :
    Evolves s (s.request label) := h.emplace_add hfind label.no_zero .default

theorem Sound.member (h : s.Sound) (label : FieldName) (value : Variant) :
    ∃ s', s.member label value = some s' ∧ Evolves s s' := by
  unfold Slot.member locate
  rw [h.find_data (List.Perm.refl _), Option.bind_some]
  cases hfind : s.find label.text with
  | some a => exact ⟨_, rfl, h.write (h.find_iff.mp hfind).1 value⟩
  | none =>
    have hrequest := h.request hfind
    simp only
    rw [hrequest.sound.find_data (List.reverse_perm _)]
    cases hagain : (s.request label).find label.text with
    | some a =>
      have ha := (hrequest.sound.find_iff.mp hagain).1
      exact ⟨_, rfl, hrequest.trans (hrequest.sound.write ha value)⟩
    | none => exact ⟨_, rfl, hrequest⟩

theorem fromString_evolves (s : Slot) (members : List (FieldName × Variant)) (failed : Bool) :
    ∃ s', s.fromString members failed = some s' ∧ Evolves s s' := by
  obtain ⟨s', hs', hevolves⟩ := evolves_foldlM members
    (fun s member hs _ => hs.member member.1 member.2) (evolves_clear s).sound
  unfold fromString
  rw [hs']
  refine ⟨_, rfl, (evolves_clear s).trans ?_⟩
  cases failed with
  | false => exact hevolves
  | true => exact hevolves.trans (evolves_clear s')

/-- A label that is not there is removed without harm. -/
theorem Sound.remove (h : s.Sound) {label : FieldName} (hfind : s.find label.text = none) :
    s.remove label = some s := by
  unfold Slot.remove
  simp only [hfind]
  rw [h.remove_absent hfind]
  rfl

/-- Where the label is there, its characters are gone when `Container::Remove` comes to them. -/
theorem Sound.remove_present (h : s.Sound) {label : FieldName} {a : Address}
    (hfind : s.find label.text = some a) : s.remove label = none := by
  obtain ⟨ha, hkey⟩ := h.find_iff.mp hfind
  have hremove : ∀ rest : List Label, rest ⊆ s.container.data → ⟨a, a⟩ ∈ rest →
      Container.remove (s.memory.free [a]) label.text rest = none := by
    intro rest hsub hmem
    induction rest with
    | nil => exact nomatch hmem
    | cons entry rest ih =>
      obtain ⟨hentry, helement⟩ := h.mem_data (hsub List.mem_cons_self)
      rw [Container.remove]
      by_cases heq : entry.label = a
      · have hgone : (s.memory.free [a]).text entry.label = none := by
          simp [Memory.text, Memory.free, heq]
        rw [hgone]
        rfl
      · have hsame : (s.memory.free [a]).text entry.label = s.memory.text entry.label := by
          simp [Memory.text, Memory.free, heq]
        have hrest : ⟨a, a⟩ ∈ rest := by
          rcases List.mem_cons.mp hmem with hhead | hrest
          · exact absurd (congrArg Label.label hhead).symm heq
          · exact hrest
        obtain ⟨node, hnode, htext⟩ := h.live _ hentry
        have hne : node.key ≠ label.text := by
          intro hsame
          apply heq
          apply h.unique hentry ha
          rw [hkey, hnode, Option.map_some, hsame]
        rw [hsame, htext, Option.bind_some, if_neg hne,
          ih (fun _ hx => hsub (List.mem_cons_of_mem _ hx)) hrest]
        rfl
  have hdata : (⟨a, a⟩ : Label) ∈ s.container.data :=
    h.registered.mem_iff.mpr (List.mem_map.mpr ⟨a, ha, rfl⟩)
  unfold Slot.remove
  simp only [hfind]
  show (Container.remove (s.memory.free [a]) label.text s.container.data).map _ = none
  rw [hremove _ (List.Subset.refl _) hdata]
  rfl

/-! ### Construction and copy assignment -/

/-- A new key hides no other one. -/
theorem find_add (hbounded : ∀ a ∈ s.container.elements, a < s.memory.fresh)
    (hfind : s.find key = none) (value : Variant) {key' : Text} (hother : s.find key' = none)
    (hne : key' ≠ key) :
    ((s.emplace key value).1.add (s.emplace key value).2).find key' = none := by
  rw [emplace_of_none hfind]
  unfold find at hother ⊢
  rw [List.find?_eq_none] at hother ⊢
  intro a ha
  rcases List.mem_append.mp ha with ha | ha
  · have hold : (s.memory.allocate ⟨key, value⟩).nodes a = s.memory.nodes a :=
      Function.update_of_ne (ne_of_lt (hbounded a ha)) _ _
    simpa only [add, hold] using hother a ha
  · obtain rfl := List.mem_singleton.mp ha
    have hnew : (s.memory.allocate ⟨key, value⟩).nodes s.memory.fresh = some ⟨key, value⟩ :=
      Function.update_self _ _ _
    simpa [add, hnew] using hne.symm

theorem constructElements_evolves (m : Memory) (values : Elements)
    (hzero : ∀ entry ∈ values.values, 0 ∉ entry.1) :
    Evolves ⟨m, .empty⟩ (constructElements m values) := by
  have hloop : ∀ (l : List (Text × Variant)) (s : Slot), s.Sound →
      (∀ entry ∈ l, 0 ∉ entry.1) → (l.map Prod.fst).Nodup →
      (∀ entry ∈ l, s.find entry.1 = none) →
      Evolves s (l.foldl (fun s (key, value) =>
        let (s, a) := s.emplace key value
        s.add a) s) := by
    intro l
    induction l with
    | nil => exact fun s hs _ _ _ => .refl hs
    | cons entry l ih =>
      intro s hs hzero hnodup hfind
      have hfirst := hfind entry List.mem_cons_self
      have hkey := hzero entry List.mem_cons_self
      have hadd := hs.emplace_add hfirst hkey entry.2
      rw [List.map_cons, List.nodup_cons] at hnodup
      refine hadd.trans (ih _ hadd.sound (fun e he => hzero e (List.mem_cons_of_mem _ he))
        hnodup.2 fun e he => ?_)
      apply find_add hs.bounded hfirst entry.2 (hfind e (List.mem_cons_of_mem _ he))
      intro heq
      exact hnodup.1 (heq ▸ List.mem_map_of_mem he)
  exact hloop values.values _ (sound_empty m) hzero values.nodup fun _ _ => rfl

/-- The slot with the labels that its map should have. -/
def labelled (s : Slot) : Slot :=
  { s with container.data := s.container.elements.map fun a => ⟨a, a⟩ }

theorem labelled_emplace (hfind : s.find key = none) (value : Variant) :
    (s.emplace key value).1.labelled =
      (s.labelled.emplace key value).1.add (s.labelled.emplace key value).2 := by
  have hfind' : s.labelled.find key = none := hfind
  rw [emplace_of_none hfind, emplace_of_none hfind']
  simp only [labelled, add, List.map_append, List.map_cons, List.map_nil]

/-- A map that is copied while its container stays sound. -/
theorem copyElements_evolves {m : Memory} {source : VariantContainer}
    (h : Sound ⟨m, source⟩) : ∃ s, copyElements m source = some s ∧
      Evolves ⟨m, .empty⟩ s.labelled ∧ s.container.data = [] ∧
      ∀ a ∈ s.container.elements, ∃ b ∈ source.elements,
        (s.memory.nodes a).map Node.key = (m.nodes b).map Node.key := by
  have hloop : ∀ (l : List Address) (s : Slot), (∀ b ∈ l, b ∈ source.elements) → l.Nodup →
      Evolves ⟨m, .empty⟩ s.labelled → s.container.data = [] →
      (∀ a ∈ s.container.elements, ∃ b ∈ source.elements,
        (s.memory.nodes a).map Node.key = (m.nodes b).map Node.key) →
      (∀ b ∈ l, ∀ node, m.nodes b = some node → s.find node.key = none) →
      ∃ s', l.foldlM (fun s a => (s.memory.nodes a).map fun node =>
          (s.emplace node.key node.value).1) s = some s' ∧
        Evolves ⟨m, .empty⟩ s'.labelled ∧ s'.container.data = [] ∧
        ∀ a ∈ s'.container.elements, ∃ b ∈ source.elements,
          (s'.memory.nodes a).map Node.key = (m.nodes b).map Node.key := by
    intro l
    induction l with
    | nil => exact fun s _ _ hevolves hdata hkeys _ => ⟨s, rfl, hevolves, hdata, hkeys⟩
    | cons b l ih =>
      intro s hsub hnodup hevolves hdata hkeys hfind
      have hb := hsub b List.mem_cons_self
      obtain ⟨node, hnode, htext⟩ := h.live b hb
      have hsame : s.memory.nodes b = some node := by
        rw [← hnode]
        exact hevolves.frame b (h.bounded b hb) nofun
      have hnone := hfind b List.mem_cons_self node hnode
      have hzero : 0 ∉ node.key := h.no_zero hb hnode
      have hnone' : s.labelled.find node.key = none := hnone
      have hadd := hevolves.sound.emplace_add hnone' hzero node.value
      rw [List.foldlM_cons, hsame]
      show ∃ s', List.foldlM _ (s.emplace node.key node.value).1 l = some s' ∧ _
      apply ih
      · exact fun c hc => hsub c (List.mem_cons_of_mem _ hc)
      · exact (List.nodup_cons.mp hnodup).2
      · rw [labelled_emplace hnone]
        exact hevolves.trans hadd
      · rw [emplace_of_none hnone]
        exact hdata
      · intro a ha
        rw [emplace_of_none hnone] at ha ⊢
        rcases List.mem_append.mp ha with ha | ha
        · obtain ⟨c, hc, hkey⟩ := hkeys a ha
          refine ⟨c, hc, ?_⟩
          rw [← hkey]
          exact congrArg _ (Function.update_of_ne (ne_of_lt (hevolves.sound.bounded a ha)) _ _)
        · obtain rfl := List.mem_singleton.mp ha
          refine ⟨b, hb, ?_⟩
          rw [hnode]
          exact congrArg _ (Function.update_self _ _ _)
      · intro c hc node' hnode'
        have hc' := hsub c (List.mem_cons_of_mem _ hc)
        have hne : node'.key ≠ node.key := by
          intro heq
          have hcb : c = b := h.unique hc' hb (by
            show (m.nodes c).map _ = (m.nodes b).map _
            rw [hnode', hnode, Option.map_some, Option.map_some, heq])
          exact (List.nodup_cons.mp hnodup).1 (hcb ▸ hc)
        have hother : s.labelled.find node'.key = none :=
          hfind c (List.mem_cons_of_mem _ hc) node' hnode'
        have hnext := find_add hevolves.sound.bounded hnone' node.value hother hne
        rw [← labelled_emplace hnone] at hnext
        exact hnext
  exact hloop source.elements ⟨m, .empty⟩ (fun _ hb => hb) h.nodup
    (.refl (sound_empty m)) rfl nofun fun _ _ _ _ => rfl

theorem copy_evolves {m : Memory} {source : VariantContainer} (h : Sound ⟨m, source⟩) :
    ∃ s, copy m source = some s ∧ Evolves ⟨m, .empty⟩ s := by
  obtain ⟨s, hs, hevolves, hdata, hkeys⟩ := copyElements_evolves h
  have hsource : Sound ⟨s.memory, source⟩ := h.congr hevolves.fresh fun b hb =>
    congrArg _ (hevolves.frame b (h.bounded b hb) nofun)
  have hloop : ∀ (l : List Address) (data : List Label), (∀ a ∈ l, a ∈ s.container.elements) →
      l.foldlM (fun (t : Slot) a => (t.memory.text a).bind fun label =>
        (Container.hasLabel t.memory label source.data).map fun registered =>
          if ((⟨t.memory, source⟩ : Slot).find label).isSome && registered then t.add a else t)
        ({ s with container.data := data } : Slot) =
      some { s with container.data := data ++ l.map fun a => ⟨a, a⟩ } := by
    intro l
    induction l with
    | nil => exact fun data _ => by simp
    | cons a l ih =>
      intro data hsub
      have ha := hsub a List.mem_cons_self
      obtain ⟨node, hnode, htext⟩ := hevolves.sound.live a ha
      obtain ⟨b, hb, hkey⟩ := hkeys a ha
      have hkey' : (s.memory.nodes b).map Node.key = some node.key := by
        have hsame : s.memory.nodes b = m.nodes b := hevolves.frame b (h.bounded b hb) nofun
        have hnode' : s.memory.nodes a = some node := hnode
        rw [hsame, ← hkey, hnode']
        rfl
      have hfind : (⟨s.memory, source⟩ : Slot).find node.key = some b :=
        hsource.find_iff.mpr ⟨hb, hkey'⟩
      have hlabel : Container.hasLabel s.memory node.key source.data = some true := by
        have hread := hsource.find_data (List.Perm.refl _) node.key
        simp only at hread
        rw [Container.hasLabel, hread, hfind]
        rfl
      have htext' : s.memory.text a = some node.key := htext
      rw [List.foldlM_cons]
      simp only [htext', hlabel, hfind, Option.bind_some, Option.map_some, Option.isSome_some,
        Bool.and_self, if_true]
      have hrest := ih (data ++ [⟨a, a⟩]) fun c hc => hsub c (List.mem_cons_of_mem _ hc)
      rw [List.append_assoc] at hrest
      exact hrest
  have hlast := hloop s.container.elements [] fun _ ha => ha
  refine ⟨s.labelled, ?_, hevolves⟩
  unfold copy
  rw [hs]
  have hsame : ({ s with container.data := [] } : Slot) = s := by
    obtain ⟨memory, data, elements⟩ := s
    simp only at hdata
    rw [hdata]
  rw [hsame] at hlast
  exact hlast

/-- A right-hand side that is this container or one beside it. -/
structure Beside (rhs : VariantContainer) (s : Slot) : Prop where
  sound : Sound ⟨s.memory, rhs⟩
  apart : rhs = s.container ∨ ∀ b ∈ rhs.elements, b ∉ s.container.elements

theorem Beside.evolves {rhs : VariantContainer} (h : Beside rhs s) (hevolves : Evolves s s')
    (hself : rhs = s.container → s'.container = s.container) : Beside rhs s' := by
  rcases h.apart with heq | hapart
  · have hsame := hself heq
    refine ⟨?_, Or.inl (heq.trans hsame.symm)⟩
    rw [heq, ← hsame]
    exact hevolves.sound
  · refine ⟨h.sound.congr hevolves.fresh fun b hb =>
      congrArg _ (hevolves.frame b (h.sound.bounded b hb) (hapart b hb)), Or.inr ?_⟩
    intro b hb hmem
    rcases hevolves.elements b hmem with hmem' | hmem'
    · exact hapart b hb hmem'
    · exact absurd (h.sound.bounded b hb) (not_lt.mpr hmem')

theorem Sound.combine (h : s.Sound) {rhs : VariantContainer} (hrhs : Beside rhs s)
    (ha : a ∈ s.container.elements) : ∃ s', s.combine rhs a = some s' ∧ Evolves s s' ∧
      Beside rhs s' ∧ ∀ b ∈ s.container.elements, b ≠ a → b ∈ s'.container.elements := by
  obtain ⟨node, hnode, htext⟩ := h.live a ha
  unfold Slot.combine
  rw [htext, Option.bind_some]
  cases hfind : (⟨s.memory, rhs⟩ : Slot).find node.key with
  | some b =>
    obtain ⟨node', hnode', -⟩ := hrhs.sound.live b (hrhs.sound.find_iff.mp hfind).1
    have hnode'' : s.memory.nodes b = some node' := hnode'
    have hwrite := h.write ha node'.value
    exact ⟨_, by simp only [hnode'']; rfl, hwrite, hrhs.evolves hwrite fun _ => rfl,
      fun _ hb _ => hb⟩
  | none =>
    simp only
    rw [h.remove_data ha htext]
    have hdrop := h.drop ha
    refine ⟨_, rfl, hdrop, hrhs.evolves hdrop fun hself => ?_, fun b hb hne => ?_⟩
    · subst hself
      exact absurd (by rw [hnode]; rfl) (h.find_none hfind ha)
    · exact (List.mem_erase_of_ne hne).mpr hb

theorem Sound.complete (h : s.Sound) {rhs : VariantContainer} (hrhs : Beside rhs s) {b : Address}
    (hb : b ∈ rhs.elements) :
    ∃ s', s.complete b = some s' ∧ Evolves s s' ∧ Beside rhs s' := by
  obtain ⟨node, hnode, htext⟩ := hrhs.sound.live b hb
  have hnode' : s.memory.nodes b = some node := hnode
  have htext' : s.memory.text b = some node.key := htext
  unfold Slot.complete
  rw [hnode', Option.bind_some, htext', Option.map_some]
  cases hfind : s.find node.key with
  | some a => exact ⟨s, rfl, .refl h, hrhs⟩
  | none =>
    have hadd := h.emplace_add hfind (hrhs.sound.no_zero hb hnode) node.value
    refine ⟨_, rfl, hadd, hrhs.evolves hadd fun hself => ?_⟩
    subst hself
    exact absurd (by rw [hnode']; rfl) (h.find_none hfind hb)

theorem Sound.assign (h : s.Sound) {rhs : VariantContainer} (hrhs : Beside rhs s) :
    ∃ s', s.assign rhs = some s' ∧ Evolves s s' := by
  have hcombine : ∀ (l : List Address) (t : Slot), t.Sound → Beside rhs t → l.Nodup →
      (∀ a ∈ l, a ∈ t.container.elements) →
      ∃ t', l.foldlM (fun (s : Slot) a => s.combine rhs a) t = some t' ∧ Evolves t t' ∧
        Beside rhs t' := by
    intro l
    induction l with
    | nil => exact fun t ht hrhs _ _ => ⟨t, rfl, .refl ht, hrhs⟩
    | cons a l ih =>
      intro t ht hrhs hnodup hsub
      obtain ⟨hnot, hnodup'⟩ := List.nodup_cons.mp hnodup
      obtain ⟨t', ht', hevolves, hrhs', hkept⟩ := ht.combine hrhs (hsub a List.mem_cons_self)
      obtain ⟨t'', ht'', hevolves', hrhs''⟩ := ih t' hevolves.sound hrhs' hnodup' fun b hb =>
        hkept b (hsub b (List.mem_cons_of_mem _ hb)) fun heq => hnot (heq ▸ hb)
      exact ⟨t'', by rw [List.foldlM_cons, ht']; exact ht'', hevolves.trans hevolves', hrhs''⟩
  have hcomplete : ∀ (l : List Address) (t : Slot), t.Sound → Beside rhs t →
      (∀ b ∈ l, b ∈ rhs.elements) →
      ∃ t', l.foldlM Slot.complete t = some t' ∧ Evolves t t' := by
    intro l
    induction l with
    | nil => exact fun t ht _ _ => ⟨t, rfl, .refl ht⟩
    | cons b l ih =>
      intro t ht hrhs hsub
      obtain ⟨t', ht', hevolves, hrhs'⟩ := ht.complete hrhs (hsub b List.mem_cons_self)
      obtain ⟨t'', ht'', hevolves'⟩ := ih t' hevolves.sound hrhs' fun c hc =>
        hsub c (List.mem_cons_of_mem _ hc)
      exact ⟨t'', by rw [List.foldlM_cons, ht']; exact ht'', hevolves.trans hevolves'⟩
  obtain ⟨t, ht, hevolves, hrhs'⟩ := hcombine _ s h hrhs h.nodup fun _ ha => ha
  obtain ⟨t', ht', hevolves'⟩ := hcomplete rhs.elements t hevolves.sound hrhs' fun _ hb => hb
  unfold Slot.assign
  rw [ht]
  exact ⟨t', ht', hevolves.trans hevolves'⟩

end Slot

end Thunder.Core.Variants
