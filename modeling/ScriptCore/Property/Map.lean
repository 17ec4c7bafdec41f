import Std.Data.TreeMap.Lemmas
import ScriptCore.Property.Key

/-! # Property maps

An object maps keys to cells and remembers the order in which the keys came. A key that is bound
again keeps its place; a key that is removed and bound again goes to the end. The entries are a list,
and a search tree beside it finds the cell of a key without walking the list.

* `find?_insert`, `find?_erase`, `find?_filter`: what binding and removing keys do to the cells.
* `keys_insert`, `keys_erase`, `keys_filter`: what they do to the order.
* `nodup_keys`: no key has two entries. -/

namespace ScriptCore

/-- Keys to cells, in order of insertion. -/
structure PropertyMap where
  /-- The entries, the newest in front. -/
  recent : List (PropertyKey × CellRef)
  /-- The cell of each key. -/
  index : Std.TreeMap PropertyKey CellRef PropertyKey.compare
  index_eq : ∀ key : PropertyKey, index[key]? = recent.lookup key
  nodup : (recent.map (·.1)).Nodup

namespace PropertyMap

/-! ### Entries -/

theorem lookup_cons (k' : PropertyKey) (d : CellRef) (entries : List (PropertyKey × CellRef))
    (k : PropertyKey) :
    ((k', d) :: entries).lookup k = if k' = k then some d else entries.lookup k := by
  by_cases h : k' = k
  · simp [h]
  · rw [List.lookup_cons, beq_false_of_ne (Ne.symm h), if_neg h]

/-- The entries with one key bound anew, in its place. -/
def rebind (key : PropertyKey) (c : CellRef) (entries : List (PropertyKey × CellRef)) :
    List (PropertyKey × CellRef) :=
  entries.map fun e => if e.1 = key then (key, c) else e

theorem lookup_rebind (key : PropertyKey) (c : CellRef) (k : PropertyKey)
    (entries : List (PropertyKey × CellRef)) :
    (rebind key c entries).lookup k =
      if key = k then (entries.lookup key).map fun _ => c else entries.lookup k := by
  unfold rebind
  induction entries with
  | nil => simp
  | cons e entries ih =>
    obtain ⟨k', d⟩ := e
    rw [List.map_cons, lookup_cons, lookup_cons]
    by_cases h : k' = key
    · rw [if_pos h, lookup_cons, ih, h]; grind
    · rw [if_neg h, lookup_cons, ih]; grind

theorem keys_rebind (key : PropertyKey) (c : CellRef) (entries : List (PropertyKey × CellRef)) :
    (rebind key c entries).map (·.1) = entries.map (·.1) := by
  rw [rebind, List.map_map]
  refine List.map_congr_left fun e _ => ?_
  by_cases h : e.1 = key <;> simp [h]

theorem lookup_filter_keys (p : PropertyKey → Bool) (k : PropertyKey)
    (entries : List (PropertyKey × CellRef)) :
    (entries.filter fun e => p e.1).lookup k = (entries.lookup k).filter fun _ => p k := by
  induction entries with
  | nil => simp
  | cons e entries ih =>
    obtain ⟨k', d⟩ := e
    rw [List.filter_cons, lookup_cons]
    by_cases hp : p k'
    · rw [if_pos hp, lookup_cons, ih]; grind
    · rw [if_neg hp, ih]; grind

theorem not_mem_keys_of_lookup {k : PropertyKey} {entries : List (PropertyKey × CellRef)}
    (h : entries.lookup k = none) : k ∉ entries.map (·.1) := by
  induction entries with
  | nil => simp
  | cons e entries ih =>
    obtain ⟨k', d⟩ := e
    rw [lookup_cons] at h
    by_cases hk : k' = k
    · rw [if_pos hk] at h; cases h
    · rw [if_neg hk] at h
      rw [List.map_cons, List.mem_cons, not_or]
      exact ⟨Ne.symm hk, ih h⟩

/-! ### The search tree -/

theorem index_insert (t : Std.TreeMap PropertyKey CellRef PropertyKey.compare)
    (key k : PropertyKey) (c : CellRef) :
    (t.insert key c)[k]? = if key = k then some c else t[k]? := by
  simp only [Std.TreeMap.getElem?_insert, Std.LawfulEqCmp.compare_eq_iff_eq]

theorem index_erase (t : Std.TreeMap PropertyKey CellRef PropertyKey.compare)
    (key k : PropertyKey) : (t.erase key)[k]? = t[k]?.filter fun _ => k ≠ key := by
  simp only [Std.TreeMap.getElem?_erase, Std.LawfulEqCmp.compare_eq_iff_eq]
  by_cases h : key = k
  · simp [h]
  · rw [if_neg h]
    cases t[k]? <;> simp [Option.filter, Ne.symm h]

/-! ### Operations -/

def empty : PropertyMap := ⟨[], ∅, by simp, by simp⟩

/-- The cell of a key. -/
def find? (m : PropertyMap) (key : PropertyKey) : Option CellRef := m.index[key]?

/-- Binds a key to a cell: in its place, or at the end if it is new. -/
def insert (m : PropertyMap) (key : PropertyKey) (c : CellRef) : PropertyMap :=
  match h : m.find? key with
  | some _ =>
    { recent := rebind key c m.recent
      index := m.index.insert key c
      index_eq := fun k => by
        have hl : m.recent.lookup key = _ := (m.index_eq key).symm.trans h
        rw [lookup_rebind, index_insert, hl, m.index_eq k]
        rfl
      nodup := by rw [keys_rebind]; exact m.nodup }
  | none =>
    { recent := (key, c) :: m.recent
      index := m.index.insert key c
      index_eq := fun k => by
        rw [index_insert, lookup_cons, m.index_eq k]
      nodup := by
        rw [List.map_cons, List.nodup_cons]
        exact ⟨not_mem_keys_of_lookup ((m.index_eq key).symm.trans h), m.nodup⟩ }

/-- Removes a key. -/
def erase (m : PropertyMap) (key : PropertyKey) : PropertyMap :=
  { recent := m.recent.filter (·.1 ≠ key)
    index := m.index.erase key
    index_eq := fun k => by
      rw [lookup_filter_keys (fun key' => key' ≠ key), index_erase, m.index_eq k]
    nodup := m.nodup.sublist ((List.filter_sublist).map _) }

/-- Keeps the keys that satisfy `p`. -/
def filter (p : PropertyKey → Bool) (m : PropertyMap) : PropertyMap :=
  { recent := m.recent.filter fun e => p e.1
    index := m.index.filter fun k _ => p k
    index_eq := fun k => by
      rw [lookup_filter_keys, Std.TreeMap.getElem?_filter', m.index_eq k]
    nodup := m.nodup.sublist ((List.filter_sublist).map _) }

def size (m : PropertyMap) : Nat := m.recent.length

/-- The entries in order of insertion. -/
def toList (m : PropertyMap) : List (PropertyKey × CellRef) := m.recent.reverse

/-- The keys in order of insertion. -/
def keys (m : PropertyMap) : List PropertyKey := m.toList.map (·.1)

/-- The entry at a position of `toList`. -/
def entry? (m : PropertyMap) (i : Nat) : Option (PropertyKey × CellRef) :=
  if i < m.size then m.recent[m.size - 1 - i]? else none

/-! ### Cells and order -/

theorem nodup_keys (m : PropertyMap) : m.keys.Nodup := by
  rw [keys, toList, List.map_reverse]
  exact List.pairwise_reverse.mpr (m.nodup.imp Ne.symm)

theorem entry?_eq (m : PropertyMap) (i : Nat) : m.entry? i = m.toList[i]? := by
  unfold entry? toList size
  by_cases h : i < m.recent.length
  · rw [if_pos h, List.getElem?_reverse h]
  · rw [if_neg h, List.getElem?_eq_none (by simpa using h)]

theorem find?_insert (m : PropertyMap) (key k : PropertyKey) (c : CellRef) :
    (m.insert key c).find? k = if key = k then some c else m.find? k := by
  have h : (m.insert key c).index = m.index.insert key c := by
    unfold insert; split <;> rfl
  rw [find?, h, index_insert]
  rfl

theorem find?_erase (m : PropertyMap) (key k : PropertyKey) :
    (m.erase key).find? k = if key = k then none else m.find? k := by
  show (m.index.erase key)[k]? = _
  simp only [Std.TreeMap.getElem?_erase, Std.LawfulEqCmp.compare_eq_iff_eq]
  rfl

theorem find?_filter (p : PropertyKey → Bool) (m : PropertyMap) (k : PropertyKey) :
    (m.filter p).find? k = if p k then m.find? k else none := by
  show (m.index.filter fun k _ => p k)[k]? = _
  rw [Std.TreeMap.getElem?_filter', find?]
  by_cases h : p k
  · cases m.index[k]? <;> simp [h]
  · simp [h]

theorem keys_insert (m : PropertyMap) (key : PropertyKey) (c : CellRef) :
    (m.insert key c).keys = if (m.find? key).isSome then m.keys else m.keys ++ [key] := by
  unfold insert
  split
  · next h => simp [keys, toList, h, List.map_reverse, keys_rebind]
  · next h => simp [keys, toList, h, List.map_reverse]

theorem keys_filter (p : PropertyKey → Bool) (m : PropertyMap) :
    (m.filter p).keys = m.keys.filter p := by
  simp [keys, toList, filter, List.map_reverse, List.filter_reverse, List.filter_map,
    Function.comp_def]

theorem keys_erase (m : PropertyMap) (key : PropertyKey) :
    (m.erase key).keys = m.keys.filter (· ≠ key) := by
  simp [keys, toList, erase, List.map_reverse, List.filter_reverse, List.filter_map,
    Function.comp_def]

end PropertyMap

end ScriptCore
