import Mathlib.Data.List.Nodup
import Mathlib.Data.List.Perm.Basic
import Defeasible.OrderedMap

/-!
Ordered maps by their lookups. An insertion changes the lookup of its own key and
no other, the listed keys are those that have a value, and a map built from a
list that gives every key one value has that value at each key of the list.
-/

namespace Defeasible
namespace OrderedMap

variable {κ ν : Type} [Ord κ] [Std.TransOrd κ] [Std.LawfulEqOrd κ] [DecidableEq κ]

omit [Std.TransOrd κ] in
theorem compare_beq_eq (j k : κ) : (compare j k == .eq) = decide (j = k) := by
  by_cases h : j = k
  · simp [h, Std.LawfulEqCmp.compare_eq_iff_eq.mpr]
  · simp [h, Std.LawfulEqCmp.compare_eq_iff_eq]

omit [Std.TransOrd κ] in
theorem find?_insertEntry (k : κ) (v : ν) (j : κ) (entries : List (κ × ν)) :
    (insertEntry k v entries).find? (fun e => compare j e.1 == .eq) =
      if j = k then some (k, v) else entries.find? fun e => compare j e.1 == .eq := by
  simp only [compare_beq_eq]
  induction entries with
  | nil => by_cases h : j = k <;> simp [insertEntry, h]
  | cons head rest ih =>
      obtain ⟨l, w⟩ := head
      rw [insertEntry]
      split
      next => by_cases h : j = k <;> simp [h]
      next heq =>
        obtain rfl := Std.LawfulEqCmp.compare_eq_iff_eq.mp heq
        by_cases h : j = k <;> simp [h]
      next hgt =>
        have hne : k ≠ l := by
          rintro rfl
          rw [Std.ReflOrd.compare_self] at hgt
          cases hgt
        by_cases hl : j = l
        · subst hl
          simp [Ne.symm hne]
        · simp only [List.find?_cons, hl, decide_false, ih]

theorem get?_insert (m : OrderedMap κ ν) (k : κ) (v : ν) (j : κ) :
    (m.insert k v).get? j = if j = k then some v else m.get? j := by
  rw [get?, insert, find?_insertEntry]
  split <;> rfl

theorem get?_insert_self (m : OrderedMap κ ν) (k : κ) (v : ν) : (m.insert k v).get? k = some v := by
  rw [get?_insert, if_pos rfl]

theorem get?_insert_of_ne (m : OrderedMap κ ν) {k j : κ} (v : ν) (h : j ≠ k) :
    (m.insert k v).get? j = m.get? j := by
  rw [get?_insert, if_neg h]

omit [Std.TransOrd κ] in
theorem mem_entries_of_get? {m : OrderedMap κ ν} {k : κ} {v : ν} (h : m.get? k = some v) :
    (k, v) ∈ m.entries := by
  obtain ⟨⟨l, w⟩, he, rfl⟩ := Option.map_eq_some_iff.mp h
  have hk : k = l := by simpa [compare_beq_eq] using List.find?_some he
  subst hk
  exact List.mem_of_find?_eq_some he

omit [Std.TransOrd κ] in
theorem mem_keys_iff {m : OrderedMap κ ν} {k : κ} : k ∈ m.keys ↔ ∃ v, m.get? k = some v := by
  constructor
  · intro h
    obtain ⟨⟨l, w⟩, he, rfl⟩ := List.mem_map.mp h
    have hsome : (m.entries.find? fun e => compare l e.1 == .eq).isSome = true :=
      List.find?_isSome.mpr ⟨(l, w), he, by simp⟩
    obtain ⟨e, hfind⟩ := Option.isSome_iff_exists.mp hsome
    exact ⟨e.2, by rw [get?, hfind, Option.map_some]⟩
  · rintro ⟨v, h⟩
    exact List.mem_map.mpr ⟨(k, v), mem_entries_of_get? h, rfl⟩

theorem mem_keys_insert {m : OrderedMap κ ν} {k : κ} {v : ν} {j : κ} :
    j ∈ (m.insert k v).keys ↔ j = k ∨ j ∈ m.keys := by
  rw [mem_keys_iff, mem_keys_iff, get?_insert]
  by_cases h : j = k <;> simp [h]

omit [Std.TransOrd κ] [Std.LawfulEqOrd κ] [DecidableEq κ] in
theorem mem_keys_of_mem_erase {m : OrderedMap κ ν} {k j : κ} (h : j ∈ (m.erase k).keys) :
    j ∈ m.keys := by
  obtain ⟨e, he, rfl⟩ := List.mem_map.mp h
  exact List.mem_map_of_mem (List.mem_of_mem_filter he)

omit [Std.TransOrd κ] in
theorem get?_erase (m : OrderedMap κ ν) (k j : κ) :
    (m.erase k).get? j = if j = k then none else m.get? j := by
  simp only [get?, erase, List.find?_filter, bne, compare_beq_eq]
  by_cases h : j = k
  · subst h
    simp
  · have hsame : (fun e : κ × ν => !decide (k = e.1) && decide (j = e.1)) =
        fun e => decide (j = e.1) := by
      funext e
      by_cases he : j = e.1
      · simp [he, show k ≠ e.1 from fun hk => h (he.trans hk.symm)]
      · simp [he]
    simp [h, hsame]

omit [Std.TransOrd κ] in
theorem erase_of_not_mem {m : OrderedMap κ ν} {k : κ} (h : k ∉ m.keys) : m.erase k = m := by
  have hentries : m.entries.filter (fun e => compare k e.1 != .eq) = m.entries := by
    refine List.filter_eq_self.mpr fun e he => ?_
    have hne : k ≠ e.1 := fun heq => h (heq ▸ List.mem_map_of_mem he)
    simp [bne, compare_beq_eq, hne]
  cases m
  simpa [erase] using hentries

omit [Std.TransOrd κ] [Std.LawfulEqOrd κ] [DecidableEq κ] in
theorem length_keys (m : OrderedMap κ ν) : m.keys.length = m.size := List.length_map _

/-- The value that a list of entries leaves at a key is the last one it gives. -/
theorem get?_foldl_insert (f : κ → ν) (ks : List κ) (m : OrderedMap κ ν) (k : κ) :
    ((ks.map fun j => (j, f j)).foldl (fun m e => m.insert e.1 e.2) m).get? k =
      if k ∈ ks then some (f k) else m.get? k := by
  induction ks generalizing m with
  | nil => simp
  | cons j ks ih =>
      rw [List.map_cons, List.foldl_cons, ih]
      by_cases hk : k ∈ ks
      · simp [hk]
      · by_cases hj : k = j
        · subst hj
          simp [get?_insert_self]
        · simp [hk, hj, get?_insert_of_ne]

theorem get?_ofList_map (f : κ → ν) (ks : List κ) (k : κ) :
    (ofList (ks.map fun j => (j, f j))).get? k = if k ∈ ks then some (f k) else none :=
  get?_foldl_insert f ks ∅ k

omit [Std.TransOrd κ] [Std.LawfulEqOrd κ] [DecidableEq κ] in
theorem eq_of_entries {m m' : OrderedMap κ ν} (h : m.entries = m'.entries) : m = m' := by
  cases m
  cases m'
  cases h
  rfl

omit [Std.TransOrd κ] [DecidableEq κ] in
theorem nodup_keys (m : OrderedMap κ ν) : m.keys.Nodup := by
  refine List.pairwise_map.mpr (m.ascending.imp fun {a b} hlt heq => ?_)
  rw [heq, Std.ReflOrd.compare_self] at hlt
  cases hlt

omit [Std.TransOrd κ] in
theorem get?_eq_some_iff {m : OrderedMap κ ν} {k : κ} {v : ν} :
    m.get? k = some v ↔ (k, v) ∈ m.entries := by
  refine ⟨mem_entries_of_get?, fun h => ?_⟩
  obtain ⟨w, hw⟩ := mem_keys_iff.mp (List.mem_map_of_mem h)
  have hsame := List.inj_on_of_nodup_map m.nodup_keys (mem_entries_of_get? hw) h rfl
  rw [hw, (Prod.mk.inj hsame).2]

/-- The order of the keys leaves one listing for each choice of lookups. -/
theorem ext_get? {m m' : OrderedMap κ ν} (h : ∀ k, m.get? k = m'.get? k) : m = m' := by
  have hentries : m.entries = m'.entries := by
    refine List.Perm.eq_of_pairwise (fun a b _ _ hab hba => ?_) m.ascending m'.ascending ?_
    · rw [Std.OrientedCmp.gt_of_lt hab] at hba
      cases hba
    · have hnodup := fun m : OrderedMap κ ν => List.Nodup.of_map _ m.nodup_keys
      refine (List.perm_ext_iff_of_nodup (hnodup m) (hnodup m')).mpr ?_
      rintro ⟨k, v⟩
      rw [← get?_eq_some_iff, ← get?_eq_some_iff, h]
  exact eq_of_entries hentries

omit [DecidableEq κ] in
theorem perm_insert {m : OrderedMap κ ν} {k : κ} (h : k ∉ m.keys) (v : ν) :
    (m.insert k v).entries.Perm ((k, v) :: m.entries) := by
  obtain ⟨entries, ascending⟩ := m
  change (insertEntry k v entries).Perm ((k, v) :: entries)
  change k ∉ entries.map Prod.fst at h
  clear ascending
  induction entries with
  | nil => exact .refl _
  | cons head rest ih =>
      rw [List.map_cons, List.mem_cons, not_or] at h
      rw [insertEntry]
      split
      next => exact .refl _
      next heq => exact absurd (Std.LawfulEqCmp.compare_eq_iff_eq.mp heq) h.1
      next => exact ((ih h.2).cons head).trans (.swap _ _ _)

omit [DecidableEq κ] in
theorem perm_foldl_insert {entries : List (κ × ν)} {m : OrderedMap κ ν}
    (h : (m.keys ++ entries.map Prod.fst).Nodup) :
    (entries.foldl (fun m e => m.insert e.1 e.2) m).entries.Perm (entries ++ m.entries) := by
  induction entries generalizing m with
  | nil => exact .refl _
  | cons e entries ih =>
      rw [List.map_cons] at h
      have hnodup := List.nodup_middle.mp h
      have hnew : e.1 ∉ m.keys := fun he =>
        (List.nodup_cons.mp hnodup).1 (List.mem_append_left _ he)
      have hinsert := perm_insert hnew e.2
      have hkeys : ((m.insert e.1 e.2).keys ++ entries.map Prod.fst).Nodup :=
        ((hinsert.map Prod.fst).append_right _).nodup_iff.mpr hnodup
      exact (ih hkeys).trans ((hinsert.append_left entries).trans List.perm_middle)

omit [DecidableEq κ] in
/-- Entries with keys of their own are all kept. -/
theorem perm_ofList {entries : List (κ × ν)} (h : (entries.map Prod.fst).Nodup) :
    (ofList entries).entries.Perm entries := by
  have hfoldl := perm_foldl_insert (m := ∅) h
  rwa [show (∅ : OrderedMap κ ν).entries = [] from rfl, List.append_nil] at hfoldl

/-- A map is built again from its listing. -/
theorem ofList_entries (m : OrderedMap κ ν) : ofList m.entries = m := by
  refine ext_get? fun k => Option.ext fun v => ?_
  rw [get?_eq_some_iff, get?_eq_some_iff, (perm_ofList m.nodup_keys).mem_iff]

end OrderedMap

namespace OrderedSet

variable {κ : Type} [Ord κ] [Std.TransOrd κ] [Std.LawfulEqOrd κ] [DecidableEq κ]

theorem mem_toList_foldl_insert {k : κ} {ks : List κ} {s : OrderedSet κ} :
    k ∈ toList (ks.foldl (fun s k => s.insert k ()) s) ↔ k ∈ ks ∨ k ∈ s.toList := by
  induction ks generalizing s with
  | nil => simp
  | cons j ks ih =>
      have hinsert : k ∈ toList (s.insert j ()) ↔ k = j ∨ k ∈ s.toList :=
        OrderedMap.mem_keys_insert
      rw [List.foldl_cons, ih, hinsert, List.mem_cons, or_assoc, or_left_comm]

theorem mem_toList_ofList {k : κ} {ks : List κ} : k ∈ (ofList ks).toList ↔ k ∈ ks :=
  mem_toList_foldl_insert.trans (or_iff_left nofun)

theorem ext_mem {s s' : OrderedSet κ} (h : ∀ k, k ∈ s.toList ↔ k ∈ s'.toList) : s = s' := by
  refine OrderedMap.ext_get? fun k => Option.ext fun u => ?_
  have hmem : ∀ s : OrderedSet κ, s.get? k = some u ↔ k ∈ s.toList := fun s => by
    rw [toList, OrderedMap.mem_keys_iff]
    exact ⟨fun hu => ⟨u, hu⟩, fun ⟨_, hu⟩ => hu⟩
  rw [hmem, hmem, h]

end OrderedSet
end Defeasible
