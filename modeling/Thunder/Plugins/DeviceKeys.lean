import Thunder.Library.Run
import Thunder.Plugins.VirtualInput
import Mathlib.Algebra.BigOperators.Group.List.Basic
import Mathlib.Tactic.Ring

/-! The keys of a `LinuxKeyboardInput`: how often the key maps of its tables use an output key, and
the reference counts by which it is announced. -/

namespace Thunder.PluginHost

open Function Run

/-- `std::map` from the codes to what they are converted to, with each code once. -/
abbrev LookupMap := List (BitVec 32 × KeyMap.ConversionInfo)

/-- `KeyMapEntry`, with what is set of it. -/
structure KeyMapEntry where
  code : Option (BitVec 32)
  key : Option (BitVec 16)
  modifiers : List Modifier

/-- Counts of output keys, modulo `2^16`. -/
abbrev Changes := BitVec 16 → Option (BitVec 16)

def Changes.none : Changes := fun _ => .none

/-- `changes[key] += delta`. -/
def Changes.bump (changes : Changes) (key delta : BitVec 16) : Changes :=
  update changes key (some ((changes key).getD 0 + delta))

namespace LookupMap

variable (map : LookupMap)

def find (code : BitVec 32) : Option KeyMap.ConversionInfo :=
  (map.find? (·.1 = code)).map (·.2)

def add (code : BitVec 32) (key modifiers : BitVec 16) : Bool × LookupMap :=
  if (find map code).isNone then (true, map ++ [(code, ⟨key, modifiers⟩)]) else (false, map)

def delete (code : BitVec 32) : LookupMap := map.eraseP (·.1 = code)

def modify (code : BitVec 32) (key modifiers : BitVec 16) : Bool × LookupMap :=
  add (delete map code) code key modifiers

/-- The output keys, one for each code. -/
def keys : List (BitVec 16) := map.map (·.2.code)

/-- The loop over the entries of `Import`: a code that is there already is skipped. -/
def importOne (state : LookupMap × Changes) (entry : KeyMapEntry) : LookupMap × Changes :=
  match entry.code, entry.key with
  | some code, some key =>
    if (find state.1 code).isNone then
      (state.1 ++ [(code, ⟨key, VirtualInput.modifiersOf entry.modifiers⟩)], state.2.bump key 1)
    else state
  | _, _ => state

/-- `Import` of a table with entries: the new map, and the changes to report. -/
def imported (entries : List KeyMapEntry) : LookupMap × Changes :=
  let previousKeys := (keys map).foldl (fun previous key => previous.bump key 1) Changes.none
  let updatedKeys := (keys map).foldl (fun updated key => update updated key (some 0)) Changes.none
  let (newMap, updatedKeys) := entries.foldl importOne ([], updatedKeys)
  (newMap, fun key =>
    match previousKeys key with
    | none => updatedKeys key
    | some previous => some ((updatedKeys key).getD 0 - previous))

/-- What `ClearKeyMap` reports. -/
def removedKeys : Changes :=
  (keys map).foldl (fun removed key => removed.bump key (-1)) Changes.none

/-- How many codes are mapped to a key. -/
def uses (key : BitVec 16) : Nat := (keys map).count key

end LookupMap

/-- `deviceKeys` are the reference counts; the keys in it are announced. -/
structure LinuxKeyboardInput where
  tables : List (String × LookupMap)
  deviceKeys : Changes

inductive KeyMapCall
  | importEntries (table : String) (entries : List KeyMapEntry)
  | add (table : String) (code : BitVec 32) (key modifiers : BitVec 16)
  | delete (table : String) (code : BitVec 32)
  | modify (table : String) (code : BitVec 32) (key modifiers : BitVec 16)
  | clearKeyMap
  | clearTable (name : String)

namespace LinuxKeyboardInput

open LookupMap

/-- `Table`, which is empty if it was not there. -/
def table (tables : List (String × LookupMap)) (name : String) : LookupMap :=
  ((tables.find? (·.1 = name)).map (·.2)).getD []

/-- The tables with another map for a name. -/
def setTable (name : String) (map : LookupMap) :
    List (String × LookupMap) → List (String × LookupMap)
  | [] => [(name, map)]
  | t :: tables => if t.1 = name then (name, map) :: tables else t :: setTable name map tables

def clearTable (name : String) (tables : List (String × LookupMap)) : List (String × LookupMap) :=
  tables.eraseP (·.1 = name)

/-- `Updated`, of the reported changes. -/
def updated (deviceKeys changes : Changes) : Changes := fun key =>
  match changes key with
  | none => deviceKeys key
  | some delta =>
    match deviceKeys key with
    | none => some delta
    | some current =>
      if delta ≠ 0 then if current + delta = 0 then none else some (current + delta)
      else some current

def step (s : LinuxKeyboardInput) : KeyMapCall → LinuxKeyboardInput
  | .importEntries name entries =>
    if entries.length = 0 then { s with tables := setTable name (table s.tables name) s.tables }
    else
      let (map, changes) := imported (table s.tables name) entries
      { tables := setTable name map s.tables, deviceKeys := updated s.deviceKeys changes }
  | .add name code key modifiers =>
    { s with tables := setTable name (add (table s.tables name) code key modifiers).2 s.tables }
  | .delete name code =>
    { s with tables := setTable name (delete (table s.tables name) code) s.tables }
  | .modify name code key modifiers =>
    { s with tables := setTable name (modify (table s.tables name) code key modifiers).2 s.tables }
  | .clearKeyMap =>
    { tables := s.tables.map fun t => (t.1, [])
      deviceKeys := s.tables.foldl (fun deviceKeys t =>
        if t.2.isEmpty then deviceKeys else updated deviceKeys (removedKeys t.2)) s.deviceKeys }
  | .clearTable name => { s with tables := clearTable name s.tables }

def new : LinuxKeyboardInput := ⟨[], Changes.none⟩

/-! ### What is claimed of it -/

/-- How many codes of all tables are mapped to a key. -/
def usesOf (tables : List (String × LookupMap)) (key : BitVec 16) : Nat :=
  (tables.map fun t => uses t.2 key).sum

def refCount (s : LinuxKeyboardInput) (key : BitVec 16) : Nat :=
  ((s.deviceKeys key).getD 0).toNat

def announced (s : LinuxKeyboardInput) (key : BitVec 16) : Bool := (s.deviceKeys key).isSome

/-- The counts are those of the mappings, and the keys of the mappings are announced. -/
def Exact (s : LinuxKeyboardInput) : Prop :=
  ∀ key, s.refCount key = usesOf s.tables key ∧ (s.announced key = true ↔ 0 < usesOf s.tables key)

/-- An import leaves fewer than `2^16` codes for a key; the calls that report nothing leave as many
codes for each key as there were. -/
def Reported (s : LinuxKeyboardInput) : KeyMapCall → Prop
  | .importEntries name entries =>
    entries ≠ [] → ∀ key,
      usesOf (setTable name (imported (table s.tables name) entries).1 s.tables) key < 2 ^ 16
  | .add name code _ _ => find (table s.tables name) code ≠ none
  | .delete name code => find (table s.tables name) code = none
  | .modify name code key _ => (find (table s.tables name) code).map (·.code) = some key
  | .clearKeyMap => True
  | .clearTable name => table s.tables name = []

/-! ### Counts modulo `2^16` -/

/-- The entry that a reference count of so many uses has. -/
def entryOf (uses : Nat) : Option (BitVec 16) := if uses = 0 then none else some uses

/-- A fold that counts every key by the same delta. -/
theorem foldl_bump (keys : List (BitVec 16)) (changes : Changes) (delta key : BitVec 16) :
    keys.foldl (fun changes key => changes.bump key delta) changes key =
      if keys.count key = 0 then changes key
      else some ((changes key).getD 0 + (keys.count key : BitVec 16) * delta) := by
  induction keys generalizing changes with
  | nil => rfl
  | cons k keys ih =>
    rw [List.foldl_cons, ih]
    rcases eq_or_ne k key with rfl | hne
    · simp only [Changes.bump, update_self, List.count_cons_self, Nat.add_eq_zero_iff, one_ne_zero,
        and_false, if_false, Option.getD_some]
      split_ifs with hcount
      · rw [hcount, Nat.zero_add, Nat.cast_one, one_mul]
      · rw [Nat.cast_add_one]
        congr 1
        ring
    · rw [List.count_cons_of_ne hne]
      simp only [Changes.bump, update_of_ne hne.symm]

theorem foldl_bump_none (keys : List (BitVec 16)) (delta key : BitVec 16) :
    keys.foldl (fun changes key => changes.bump key delta) Changes.none key =
      if keys.count key = 0 then none else some ((keys.count key : BitVec 16) * delta) := by
  rw [foldl_bump]
  by_cases hcount : keys.count key = 0
  · rw [if_pos hcount, if_pos hcount]
    rfl
  · rw [if_neg hcount, if_neg hcount]
    exact congrArg some (zero_add _)

theorem foldl_zero (keys : List (BitVec 16)) (changes : Changes) (key : BitVec 16) :
    keys.foldl (fun changes key => update changes key (some 0)) changes key =
      if keys.count key = 0 then changes key else some 0 := by
  induction keys generalizing changes with
  | nil => rfl
  | cons k keys ih =>
    rw [List.foldl_cons, ih]
    rcases eq_or_ne k key with rfl | hne
    · simp
    · rw [List.count_cons_of_ne hne, update_of_ne hne.symm]

/-! ### Import -/

theorem uses_append (map : LookupMap) (code : BitVec 32) (info : KeyMap.ConversionInfo)
    (key : BitVec 16) :
    uses (map ++ [(code, info)]) key = uses map key + if info.code = key then 1 else 0 := by
  simp [uses, keys, List.count_singleton]

/-- What the loop of `Import` keeps: the changes count the new map on top of the zeros. -/
def Counts (old : LookupMap) (state : LookupMap × Changes) : Prop :=
  ∀ key, state.2 key = if uses old key = 0 ∧ uses state.1 key = 0 then none
    else some (uses state.1 key : BitVec 16)

theorem Counts.importOne {old : LookupMap} {state : LookupMap × Changes} (h : Counts old state)
    (entry : KeyMapEntry) : Counts old (importOne state entry) := by
  rw [LookupMap.importOne]
  split
  · split_ifs with hnew
    · rename_i code key _ _
      intro key'
      rw [uses_append]
      rcases eq_or_ne key key' with rfl | hne
      · have hsome : ¬(uses old key = 0 ∧ uses state.1 key + 1 = 0) := by omega
        simp only [Changes.bump, update_self, if_true, if_neg hsome, Nat.cast_add_one, h key]
        split_ifs with hnone
        · rw [hnone.2]
          rfl
        · rfl
      · simp only [Changes.bump, update_of_ne hne.symm, if_neg hne, Nat.add_zero]
        exact h key'
    · exact h
  · exact h

theorem counts_imported (map : LookupMap) (entries : List KeyMapEntry) :
    Counts map (entries.foldl importOne
      ([], (keys map).foldl (fun changes key => update changes key (some 0)) Changes.none)) := by
  have hstart : Counts map
      ([], (keys map).foldl (fun changes key => update changes key (some 0)) Changes.none) := by
    intro key
    have hnil : uses ([] : LookupMap) key = 0 := rfl
    refine (foldl_zero (keys map) Changes.none key).trans ?_
    rw [hnil, ← uses, Nat.cast_zero]
    by_cases hcount : uses map key = 0
    · rw [if_pos hcount, if_pos ⟨hcount, rfl⟩]
      rfl
    · rw [if_neg hcount, if_neg fun h => hcount h.1]
  generalize ([], (keys map).foldl _ _) = state at hstart ⊢
  induction entries generalizing state with
  | nil => exact hstart
  | cons entry entries ih => exact ih _ (hstart.importOne entry)

/-- The changes of an import are the new uses less the old ones. -/
theorem imported_changes (map : LookupMap) (entries : List KeyMapEntry) (key : BitVec 16) :
    (imported map entries).2 key =
      if uses map key = 0 ∧ uses (imported map entries).1 key = 0 then none
      else some ((uses (imported map entries).1 key : BitVec 16) - (uses map key : BitVec 16)) := by
  have hprevious : (keys map).foldl (fun previous key => previous.bump key 1) Changes.none key =
      if uses map key = 0 then none else some (uses map key : BitVec 16) := by
    rw [foldl_bump_none, mul_one]
    rfl
  have hnew := counts_imported map entries key
  simp only [imported, hprevious, hnew]
  by_cases hold : uses map key = 0
  · simp only [hold, if_true, true_and, Nat.cast_zero, sub_zero]
  · simp only [hold, if_false, false_and, Option.getD_some]

theorem removedKeys_eq (map : LookupMap) (key : BitVec 16) :
    removedKeys map key =
      if uses map key = 0 then none else some (-(uses map key : BitVec 16)) := by
  rw [removedKeys, foldl_bump_none, mul_neg, mul_one]
  rfl

/-! ### Updates -/

theorem natCast_eq_zero {n : Nat} (h : n < 2 ^ 16) : (n : BitVec 16) = 0 ↔ n = 0 := by
  rw [BitVec.natCast_eq_ofNat, ← BitVec.toNat_inj, BitVec.toNat_ofNat, Nat.mod_eq_of_lt h]
  rfl

/-- Where `old` of the uses of a key are replaced by `new` ones, and reported, the reference count
follows. -/
theorem updated_entryOf {deviceKeys changes : Changes} {key : BitVec 16} {total : Nat}
    (old new : Nat) (hold : old ≤ total) (htotal : total < 2 ^ 16)
    (hnew : total - old + new < 2 ^ 16)
    (hkey : deviceKeys key = entryOf total)
    (hchanges : changes key =
      if old = 0 ∧ new = 0 then none else some ((new : BitVec 16) - (old : BitVec 16))) :
    updated deviceKeys changes key = entryOf (total - old + new) := by
  have hsum : (total : BitVec 16) + ((new : BitVec 16) - (old : BitVec 16)) =
      ((total - old + new : Nat) : BitVec 16) := by
    rw [Nat.cast_add, Nat.cast_sub hold]
    ring
  simp only [updated, hchanges, hkey]
  by_cases hnone : old = 0 ∧ new = 0
  · rw [if_pos hnone, hnone.1, hnone.2]
    rfl
  · rw [if_neg hnone]
    by_cases hzero : total = 0
    · obtain rfl : old = 0 := by omega
      have hne : new ≠ 0 := fun h => hnone ⟨rfl, h⟩
      simp [entryOf, hzero, hne]
    · simp only [entryOf, if_neg hzero, hsum]
      by_cases hdelta : (new : BitVec 16) - (old : BitVec 16) = 0
      · rw [hdelta, add_zero] at hsum
        have hsame : total = total - old + new := by
          have htoNat := congrArg BitVec.toNat hsum
          rw [BitVec.natCast_eq_ofNat, BitVec.natCast_eq_ofNat, BitVec.toNat_ofNat,
            BitVec.toNat_ofNat] at htoNat
          omega
        rw [if_neg (not_not.mpr hdelta), ← hsame, if_neg hzero]
      · rw [if_pos hdelta]
        by_cases hgone : total - old + new = 0
        · rw [if_pos hgone, if_pos ((natCast_eq_zero hnew).mpr hgone)]
        · rw [if_neg hgone, if_neg fun h => hgone ((natCast_eq_zero hnew).mp h)]

/-! ### Tables -/

variable {s : LinuxKeyboardInput} {tables : List (String × LookupMap)} {name : String}

theorem uses_setTable (name : String) (map : LookupMap) (tables : List (String × LookupMap))
    (key : BitVec 16) :
    usesOf (setTable name map tables) key + uses (table tables name) key =
      usesOf tables key + uses map key := by
  induction tables with
  | nil => simp [setTable, usesOf, table, uses, keys]
  | cons t tables ih =>
    rw [setTable]
    by_cases hname : t.1 = name
    · simp [usesOf, table, hname]
      omega
    · simp [usesOf, table, hname] at ih ⊢
      omega

theorem uses_clearTable (name : String) (tables : List (String × LookupMap)) (key : BitVec 16) :
    usesOf (clearTable name tables) key + uses (table tables name) key = usesOf tables key := by
  induction tables with
  | nil => rfl
  | cons t tables ih =>
    by_cases hname : t.1 = name
    · simp [usesOf, table, clearTable, hname]
      omega
    · simp [usesOf, table, clearTable, hname] at ih ⊢
      omega

theorem uses_cleared (tables : List (String × LookupMap)) (key : BitVec 16) :
    usesOf (tables.map fun t => (t.1, [])) key = 0 := by
  induction tables with
  | nil => rfl
  | cons t tables ih => simpa [usesOf, uses, keys] using ih

theorem uses_table_le (name : String) (tables : List (String × LookupMap)) (key : BitVec 16) :
    uses (table tables name) key ≤ usesOf tables key := by
  have hclear := uses_clearTable name tables key
  omega

/-- The counts are exact when every key has the entry of its uses. -/
theorem exact_iff_entries : s.Exact ↔
    ∀ key, s.deviceKeys key = entryOf (usesOf s.tables key) ∧ usesOf s.tables key < 2 ^ 16 := by
  refine forall_congr' fun key => ?_
  simp only [refCount, announced, entryOf]
  constructor
  · rintro ⟨hcount, hannounced⟩
    have hlt : usesOf s.tables key < 2 ^ 16 := hcount ▸ BitVec.isLt _
    refine ⟨?_, hlt⟩
    cases hentry : s.deviceKeys key with
    | none =>
      rw [hentry] at hcount
      exact (if_pos hcount.symm).symm
    | some count =>
      rw [hentry] at hcount hannounced
      have hpos := hannounced.mp rfl
      rw [if_neg (by omega), ← hcount]
      simp
  · rintro ⟨hentry, hlt⟩
    rw [hentry]
    split_ifs with hzero
    · simp [hzero]
    · simp
      omega

/-- Each code is mapped once. -/
def Distinct (map : LookupMap) : Prop := (map.map (·.1)).Nodup

theorem find_none {map : LookupMap} {code : BitVec 32} :
    find map code = none ↔ code ∉ map.map (·.1) := by
  simp only [find, Option.map_eq_none_iff, List.find?_eq_none, decide_eq_true_eq, List.mem_map,
    not_exists, not_and]

theorem Distinct.append {map : LookupMap} (h : Distinct map) {code : BitVec 32}
    (hnew : find map code = none) (info : KeyMap.ConversionInfo) :
    Distinct (map ++ [(code, info)]) := by
  rw [Distinct, List.map_append, List.nodup_append]
  refine ⟨h, List.nodup_singleton _, fun a ha b hb heq => ?_⟩
  rw [find_none] at hnew
  simp only [List.map_cons, List.map_nil, List.mem_singleton] at hb
  exact hnew (hb ▸ heq ▸ ha)

theorem Distinct.add {map : LookupMap} (h : Distinct map) (code : BitVec 32)
    (key modifiers : BitVec 16) : Distinct (add map code key modifiers).2 := by
  rw [LookupMap.add]
  split_ifs with hnew
  · exact h.append (by simpa using hnew) _
  · exact h

theorem Distinct.delete {map : LookupMap} (h : Distinct map) (code : BitVec 32) :
    Distinct (delete map code) :=
  h.sublist (List.eraseP_sublist.map _)

theorem Distinct.find_delete {map : LookupMap} (h : Distinct map) (code : BitVec 32) :
    find (LookupMap.delete map code) code = none := by
  rw [find_none, LookupMap.delete]
  induction map with
  | nil => simp
  | cons e map ih =>
    obtain ⟨hnew, hmap⟩ := List.nodup_cons.mp h
    by_cases hcode : e.1 = code
    · rw [List.eraseP_cons_of_pos (by simpa using hcode), ← hcode]
      exact hnew
    · simpa [hcode, Ne.symm hcode] using ih hmap

theorem distinct_imported (map : LookupMap) (entries : List KeyMapEntry) :
    Distinct (imported map entries).1 := by
  simp only [imported]
  have hstart : Distinct
      (([], (keys map).foldl (fun changes key => update changes key (some 0)) Changes.none) :
        LookupMap × Changes).1 := List.nodup_nil
  generalize (([], (keys map).foldl _ _) : LookupMap × Changes) = state at hstart ⊢
  induction entries generalizing state with
  | nil => exact hstart
  | cons entry entries ih =>
    refine ih _ ?_
    rw [importOne]
    split
    · split_ifs with hnew
      · exact hstart.append (by simpa using hnew) _
      · exact hstart
    · exact hstart

theorem forall_setTable {P : LookupMap → Prop} {map : LookupMap} (h : ∀ t ∈ tables, P t.2)
    (hmap : P map) : ∀ t ∈ setTable name map tables, P t.2 := by
  induction tables with
  | nil => simpa [setTable] using hmap
  | cons t tables ih =>
    rw [setTable]
    obtain ⟨ht, htables⟩ := List.forall_mem_cons.mp h
    split_ifs
    · exact List.forall_mem_cons.mpr ⟨hmap, htables⟩
    · exact List.forall_mem_cons.mpr ⟨ht, ih htables⟩

theorem forall_table {P : LookupMap → Prop} (h : ∀ t ∈ tables, P t.2) (hnil : P []) :
    P (table tables name) := by
  rw [table]
  cases hfind : tables.find? (·.1 = name) with
  | none => exact hnil
  | some t => exact h t (List.mem_of_find?_eq_some hfind)

/-! ### Calls that report nothing -/

variable {map : LookupMap} {code : BitVec 32} {key modifiers : BitVec 16}

theorem uses_delete (map : LookupMap) (code : BitVec 32) (key : BitVec 16) :
    uses map key = uses (delete map code) key +
      if (find map code).map (·.code) = some key then 1 else 0 := by
  induction map with
  | nil => rfl
  | cons e map ih =>
    by_cases hcode : e.1 = code
    · simp [uses, keys, delete, find, hcode, List.count_cons]
    · have hdelete : delete (e :: map) code = e :: delete map code := by
        rw [delete, List.eraseP_cons_of_neg (by simpa using hcode)]
        rfl
      have hfind : find (e :: map) code = find map code := by simp [find, hcode]
      have hcons : ∀ map : LookupMap,
          uses (e :: map) key = uses map key + if e.2.code == key then 1 else 0 :=
        fun _ => List.count_cons
      rw [hdelete, hfind, hcons, hcons, ih]
      omega

theorem uses_add_new (h : find map code = none) (key' : BitVec 16) :
    uses (add map code key modifiers).2 key' = uses map key' + if key = key' then 1 else 0 := by
  rw [LookupMap.add, h]
  exact uses_append ..

theorem uses_add_iff : (∀ key', uses (add map code key modifiers).2 key' = uses map key') ↔
    find map code ≠ none := by
  constructor
  · intro h hnew
    have hkey := h key
    rw [uses_add_new hnew, if_pos rfl] at hkey
    omega
  · intro h key'
    rw [LookupMap.add, if_neg (by simpa using h)]

theorem uses_delete_iff : (∀ key, uses (delete map code) key = uses map key) ↔
    find map code = none := by
  constructor
  · intro h
    by_contra hsome
    obtain ⟨info, hinfo⟩ := Option.ne_none_iff_exists'.mp hsome
    have hkey := uses_delete map code info.code
    rw [hinfo, h] at hkey
    simp at hkey
  · intro h key
    rw [uses_delete map code key, h]
    rfl

theorem uses_modify_iff (hdistinct : Distinct map) :
    (∀ key', uses (modify map code key modifiers).2 key' = uses map key') ↔
      (find map code).map (·.code) = some key := by
  have huses : ∀ key', uses (modify map code key modifiers).2 key' =
      uses (delete map code) key' + if key = key' then 1 else 0 :=
    fun key' => uses_add_new (hdistinct.find_delete code) key'
  constructor
  · intro h
    have hkey := h key
    rw [huses, if_pos rfl, uses_delete map code key] at hkey
    by_contra hother
    rw [if_neg hother] at hkey
    omega
  · intro h key'
    rw [huses, uses_delete map code key', h]
    by_cases hkey : key = key' <;> simp [hkey]

theorem uses_nil_iff : (∀ key, uses map key = 0) ↔ map = [] := by
  constructor
  · intro h
    cases map with
    | nil => rfl
    | cons e map =>
      have hkey := h e.2.code
      simp [uses, keys] at hkey
  · rintro rfl key
    rfl

/-- Where nothing is reported the counts stay exact when the uses do not change. -/
theorem exact_same (h : s.Exact) (tables : List (String × LookupMap)) :
    (⟨tables, s.deviceKeys⟩ : LinuxKeyboardInput).Exact ↔
      ∀ key, usesOf tables key = usesOf s.tables key := by
  constructor
  · exact fun h' key => (h' key).1.symm.trans (h key).1
  · intro hsame key
    rw [hsame key]
    exact h key

theorem exact_setTable (h : s.Exact) (name : String) (map : LookupMap) :
    (⟨setTable name map s.tables, s.deviceKeys⟩ : LinuxKeyboardInput).Exact ↔
      ∀ key, uses map key = uses (table s.tables name) key := by
  rw [exact_same h]
  refine forall_congr' fun key => ?_
  have huses := uses_setTable name map s.tables key
  omega

/-! ### Calls that report -/

theorem exact_import (h : s.Exact) (name : String) (entries : List KeyMapEntry) :
    let new := imported (table s.tables name) entries
    (⟨setTable name new.1 s.tables, updated s.deviceKeys new.2⟩ : LinuxKeyboardInput).Exact ↔
      ∀ key, usesOf (setTable name new.1 s.tables) key < 2 ^ 16 := by
  intro new
  rw [exact_iff_entries]
  refine ⟨fun h' key => (h' key).2, fun hlt key => ⟨?_, hlt key⟩⟩
  obtain ⟨hentry, htotal⟩ := exact_iff_entries.mp h key
  have huses := uses_setTable name new.1 s.tables key
  have hle := uses_table_le name s.tables key
  have hnew := hlt key
  have hsum : usesOf (setTable name new.1 s.tables) key =
      usesOf s.tables key - uses (table s.tables name) key + uses new.1 key := by omega
  rw [hsum] at hnew ⊢
  exact updated_entryOf _ _ hle htotal hnew hentry (imported_changes ..)

/-- The tables are cleared one after the other. -/
theorem exact_clearKeyMap (deviceKeys : Changes) (tables : List (String × LookupMap))
    (key : BitVec 16) (hentry : deviceKeys key = entryOf (usesOf tables key))
    (hlt : usesOf tables key < 2 ^ 16) :
    tables.foldl (fun deviceKeys t =>
      if t.2.isEmpty then deviceKeys else updated deviceKeys (removedKeys t.2)) deviceKeys key =
      none := by
  induction tables generalizing deviceKeys with
  | nil => exact hentry
  | cons t tables ih =>
    have hcons : usesOf (t :: tables) key = uses t.2 key + usesOf tables key := by simp [usesOf]
    rw [hcons] at hentry hlt
    rw [List.foldl_cons]
    refine ih _ ?_ (by omega)
    split_ifs with hempty
    · rw [hentry, List.isEmpty_iff.mp hempty]
      simp [uses, keys]
    · have hremoved : removedKeys t.2 key = if uses t.2 key = 0 ∧ 0 = 0 then none
          else some (((0 : Nat) : BitVec 16) - (uses t.2 key : BitVec 16)) := by
        rw [removedKeys_eq]
        simp
      have hupdated := updated_entryOf (uses t.2 key) 0 (by omega) hlt (by omega) hentry hremoved
      rw [hupdated]
      congr 1
      omega

/-! ### The runs -/

/-- The counts are exact, and no map has a code twice. -/
def Inv (s : LinuxKeyboardInput) : Prop := s.Exact ∧ ∀ t ∈ s.tables, Distinct t.2

theorem exact_step (h : s.Inv) (call : KeyMapCall) :
    (s.step call).Exact ↔ s.Reported call := by
  obtain ⟨hexact, hdistinct⟩ := h
  cases call with
  | importEntries name entries =>
    by_cases hnil : entries = []
    · subst hnil
      simpa [step, Reported] using (exact_setTable hexact name _).mpr fun _ => rfl
    · have hlength : entries.length ≠ 0 := by simpa using hnil
      simp only [step, Reported, if_neg hlength]
      refine (exact_import hexact name entries).trans ?_
      exact ⟨fun h _ => h, fun h => h hnil⟩
  | add name code key modifiers => exact (exact_setTable hexact name _).trans uses_add_iff
  | delete name code => exact (exact_setTable hexact name _).trans uses_delete_iff
  | modify name code key modifiers =>
    exact (exact_setTable hexact name _).trans
      (uses_modify_iff (forall_table hdistinct List.nodup_nil))
  | clearKeyMap =>
    refine iff_of_true (fun key => ?_) trivial
    obtain ⟨hentry, hlt⟩ := exact_iff_entries.mp hexact key
    have hnone := exact_clearKeyMap s.deviceKeys s.tables key hentry hlt
    rw [refCount, announced, step]
    simp only [hnone, uses_cleared]
    decide
  | clearTable name =>
    refine (exact_same hexact _).trans (Iff.trans ?_ uses_nil_iff)
    refine forall_congr' fun key => ?_
    have huses := uses_clearTable name s.tables key
    omega

theorem distinct_step (hdistinct : ∀ t ∈ s.tables, Distinct t.2) (call : KeyMapCall) :
    ∀ t ∈ (s.step call).tables, Distinct t.2 := by
  have htable : ∀ name, Distinct (table s.tables name) :=
    fun name => forall_table hdistinct List.nodup_nil
  cases call with
  | importEntries name entries =>
    rw [step]
    split_ifs
    · exact forall_setTable hdistinct (htable name)
    · exact forall_setTable hdistinct (distinct_imported ..)
  | add name code key modifiers => exact forall_setTable hdistinct ((htable name).add ..)
  | delete name code => exact forall_setTable hdistinct ((htable name).delete _)
  | modify name code key modifiers =>
    exact forall_setTable hdistinct (((htable name).delete _).add ..)
  | clearKeyMap =>
    intro t ht
    obtain ⟨t', -, rfl⟩ := List.mem_map.mp ht
    exact List.nodup_nil
  | clearTable name => exact fun t ht => hdistinct t (List.eraseP_subset ht)

theorem inv_new : new.Inv := ⟨fun _ => ⟨rfl, by simp [announced, new, Changes.none, usesOf]⟩, nofun⟩

/-- The counts are exact in every state of a run exactly when all of its calls are reported ones, or
change no use of a key. -/
theorem exact_iff_reported (calls : List KeyMapCall) :
    Always step Exact new calls ↔ Meets step Reported new calls :=
  always_iff_of_invariant
    (fun _ call h hok => ⟨(exact_step h call).mpr hok, distinct_step h.2 call⟩) (fun _ h => h.1)
    (fun _ call h => (exact_step h call).mp) inv_new

/-- A key that is added is not announced. -/
theorem not_exact_add : ¬ ∀ calls, Always step Exact new calls := by
  intro h
  have hlast := (h [.add "table" 1 30 0]).last
  exact absurd (hlast 30).1 (by decide)

end LinuxKeyboardInput

end Thunder.PluginHost
