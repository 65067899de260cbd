/-!
Finite maps kept as lists of entries with strictly ascending keys. Because the
order of the entries is fixed by their keys, two maps with the same lookups are
equal, and listing a map gives its keys in canonical order.
-/

namespace Defeasible

/-- A finite map, its entries in strictly ascending order of their keys. -/
structure OrderedMap (κ : Type) (ν : Type) [Ord κ] where
  entries : List (κ × ν)
  ascending : entries.Pairwise fun a b => compare a.1 b.1 = .lt

/-- A finite set, listed in strictly ascending order. -/
abbrev OrderedSet (κ : Type) [Ord κ] := OrderedMap κ Unit

namespace OrderedMap

variable {κ ν : Type} [Ord κ]

/-- Puts an entry at its place, in the stead of an entry with the same key. -/
def insertEntry (k : κ) (v : ν) : List (κ × ν) → List (κ × ν)
  | [] => [(k, v)]
  | (l, w) :: rest =>
      match compare k l with
      | .lt => (k, v) :: (l, w) :: rest
      | .eq => (k, v) :: rest
      | .gt => (l, w) :: insertEntry k v rest

theorem mem_insertEntry {k : κ} {v : ν} {entries : List (κ × ν)} {e : κ × ν}
    (h : e ∈ insertEntry k v entries) : e = (k, v) ∨ e ∈ entries := by
  induction entries with
  | nil => simpa [insertEntry] using h
  | cons head rest ih =>
      obtain ⟨l, w⟩ := head
      rw [insertEntry] at h
      split at h
      · simpa using h
      · rcases List.mem_cons.mp h with h | h
        · exact .inl h
        · exact .inr (.tail _ h)
      · rcases List.mem_cons.mp h with h | h
        · exact .inr (h ▸ .head _)
        · exact (ih h).imp_right (.tail _)

theorem ascending_insertEntry [Std.TransOrd κ] (k : κ) (v : ν) {entries : List (κ × ν)}
    (h : entries.Pairwise fun a b => compare a.1 b.1 = .lt) :
    (insertEntry k v entries).Pairwise fun a b => compare a.1 b.1 = .lt := by
  induction entries with
  | nil => simp [insertEntry]
  | cons head rest ih =>
      obtain ⟨l, w⟩ := head
      rw [List.pairwise_cons] at h
      rw [insertEntry]
      split
      next hlt =>
        refine .cons (fun e he => ?_) (.cons h.1 h.2)
        rcases List.mem_cons.mp he with rfl | he
        · exact hlt
        · exact Std.TransCmp.lt_trans hlt (h.1 e he)
      next heq => exact .cons (fun e he => Std.TransCmp.lt_of_eq_of_lt heq (h.1 e he)) h.2
      next hgt =>
        refine .cons (fun e he => ?_) (ih h.2)
        rcases mem_insertEntry he with rfl | he
        · exact Std.OrientedCmp.lt_of_gt hgt
        · exact h.1 e he

instance : EmptyCollection (OrderedMap κ ν) := ⟨⟨[], .nil⟩⟩
instance : Inhabited (OrderedMap κ ν) := ⟨∅⟩

def size (m : OrderedMap κ ν) : Nat := m.entries.length

def isEmpty (m : OrderedMap κ ν) : Bool := m.entries.isEmpty

def keys (m : OrderedMap κ ν) : List κ := m.entries.map Prod.fst

/-- The value at the key, if there is one. -/
def get? (m : OrderedMap κ ν) (k : κ) : Option ν :=
  (m.entries.find? fun e => compare k e.1 == .eq).map Prod.snd

def contains (m : OrderedMap κ ν) (k : κ) : Bool := (m.get? k).isSome

/-- Sets the value at the key. -/
def insert [Std.TransOrd κ] (m : OrderedMap κ ν) (k : κ) (v : ν) : OrderedMap κ ν where
  entries := insertEntry k v m.entries
  ascending := ascending_insertEntry k v m.ascending

/-- Removes the key. -/
def erase (m : OrderedMap κ ν) (k : κ) : OrderedMap κ ν where
  entries := m.entries.filter fun e => compare k e.1 != .eq
  ascending := m.ascending.filter _

def ofList [Std.TransOrd κ] (entries : List (κ × ν)) : OrderedMap κ ν :=
  entries.foldl (fun m e => m.insert e.1 e.2) ∅

end OrderedMap

namespace OrderedSet

variable {κ : Type} [Ord κ]

/-- The members in ascending order. -/
def toList (s : OrderedSet κ) : List κ := s.keys

def ofList [Std.TransOrd κ] (members : List κ) : OrderedSet κ :=
  members.foldl (fun s k => s.insert k ()) ∅

end OrderedSet

end Defeasible
