import Defeasible.Term

/-!
The canonical order of terms: variables before constants before applications,
names by their characters' code points, applications by name and then by their
arguments from left to right, a proper initial segment before the longer list.
It is a linear order, and two terms compare equal only if they are the same
term, so collections kept in this order hold each predicate once.
-/

namespace Defeasible

namespace Term

mutual

def compare : Term → Term → Ordering
  | .var a, .var b => Ord.compare a b
  | .var _, _ => .lt
  | .const _, .var _ => .gt
  | .const a, .const b => Ord.compare a b
  | .const _, .app .. => .lt
  | .app .., .var _ | .app .., .const _ => .gt
  | .app f xs, .app g ys => (Ord.compare f g).then (compareList xs ys)

def compareList : List Term → List Term → Ordering
  | [], [] => .eq
  | [], _ :: _ => .lt
  | _ :: _, [] => .gt
  | x :: xs, y :: ys => (compare x y).then (compareList xs ys)

end

instance : Ord Term := ⟨compare⟩

end Term

namespace Predicate

def compare (p q : Predicate) : Ordering :=
  (Ord.compare p.name q.name).then (Term.compareList p.args q.args)

instance : Ord Predicate := ⟨compare⟩

end Predicate

section Laws

variable {α : Type} [Ord α] [Std.TransOrd α]

private theorem then_swap (o r : Ordering) : (o.then r).swap = o.swap.then r.swap := by
  cases o <;> rfl

private theorem isLE_then {o r : Ordering} :
    (o.then r).isLE ↔ o = .lt ∨ o = .eq ∧ r.isLE := by
  cases o <;> simp [Ordering.then]

/-- Comparing by two keys in turn is transitive if comparing by each of them is. -/
private theorem isLE_then_trans {β : Type} (cmp : β → β → Ordering) {a b c : α} {x y z : β}
    (h : (cmp x y).isLE → (cmp y z).isLE → (cmp x z).isLE)
    (hab : ((Ord.compare a b).then (cmp x y)).isLE)
    (hbc : ((Ord.compare b c).then (cmp y z)).isLE) :
    ((Ord.compare a c).then (cmp x z)).isLE := by
  rw [isLE_then] at *
  rcases hab with hab | ⟨hab, hx⟩ <;> rcases hbc with hbc | ⟨hbc, hy⟩
  · exact .inl (Std.TransCmp.lt_trans hab hbc)
  · exact .inl (Std.TransCmp.lt_of_lt_of_eq hab hbc)
  · exact .inl (Std.TransCmp.lt_of_eq_of_lt hab hbc)
  · exact .inr ⟨Std.TransCmp.eq_trans hab hbc, h hx hy⟩

end Laws

namespace Term

mutual

theorem compare_swap (s t : Term) : compare s t = (compare t s).swap := by
  match s, t with
  | .var a, .var b => exact Std.OrientedOrd.eq_swap
  | .const a, .const b => exact Std.OrientedOrd.eq_swap
  | .app f xs, .app g ys =>
      rw [compare, compare, then_swap, ← compareList_swap xs ys,
        ← Std.OrientedOrd.eq_swap (a := f) (b := g)]
  | .var _, .const _ | .var _, .app .. | .const _, .var _ | .const _, .app ..
  | .app .., .var _ | .app .., .const _ => rfl

theorem compareList_swap (xs ys : List Term) : compareList xs ys = (compareList ys xs).swap := by
  match xs, ys with
  | [], [] | [], _ :: _ | _ :: _, [] => rfl
  | x :: xs, y :: ys =>
      rw [compareList, compareList, then_swap, ← compare_swap x y, ← compareList_swap xs ys]

end

mutual

theorem eq_of_compare (s t : Term) (h : compare s t = .eq) : s = t := by
  match s, t with
  | .var a, .var b => exact congrArg Term.var (Std.LawfulEqOrd.eq_of_compare h)
  | .const a, .const b => exact congrArg Term.const (Std.LawfulEqOrd.eq_of_compare h)
  | .app f xs, .app g ys =>
      rw [compare, Ordering.then_eq_eq] at h
      rw [Std.LawfulEqOrd.eq_of_compare h.1, eq_of_compareList xs ys h.2]
  | .var _, .const _ | .var _, .app .. | .const _, .var _ | .const _, .app ..
  | .app .., .var _ | .app .., .const _ => cases h

theorem eq_of_compareList (xs ys : List Term) (h : compareList xs ys = .eq) : xs = ys := by
  match xs, ys with
  | [], [] => rfl
  | [], _ :: _ | _ :: _, [] => cases h
  | x :: xs, y :: ys =>
      rw [compareList, Ordering.then_eq_eq] at h
      rw [eq_of_compare x y h.1, eq_of_compareList xs ys h.2]

end

theorem compare_self (t : Term) : compare t t = .eq := by
  have h := compare_swap t t
  cases h' : compare t t <;> simp [h'] at h ⊢

theorem compareList_self (ts : List Term) : compareList ts ts = .eq := by
  have h := compareList_swap ts ts
  cases h' : compareList ts ts <;> simp [h'] at h ⊢

mutual

theorem compare_isLE_trans (s t u : Term) (hst : (compare s t).isLE) (htu : (compare t u).isLE) :
    (compare s u).isLE := by
  match s, t, u with
  | .var a, .var b, .var c | .const a, .const b, .const c =>
      exact Std.TransOrd.isLE_trans (b := b) hst htu
  | .app f xs, .app g ys, .app h zs =>
      exact isLE_then_trans compareList (compareList_isLE_trans xs ys zs) hst htu
  | .var _, .var _, .const _ | .var _, .var _, .app .. | .var _, .const _, .const _
  | .var _, .const _, .app .. | .var _, .app .., .app .. | .const _, .const _, .app ..
  | .const _, .app .., .app .. => rfl
  | .const _, .var _, _ | .app .., .var _, _ | .app .., .const _, _ => cases hst
  | _, .const _, .var _ | _, .app .., .var _ | _, .app .., .const _ => cases htu

theorem compareList_isLE_trans (xs ys zs : List Term) (hxy : (compareList xs ys).isLE)
    (hyz : (compareList ys zs).isLE) : (compareList xs zs).isLE := by
  match xs, ys, zs with
  | [], _, [] | [], _, _ :: _ => rfl
  | _ :: _, [], _ => cases hxy
  | _ :: _, _ :: _, [] => cases hyz
  | x :: xs, y :: ys, z :: zs =>
      rw [compareList, isLE_then] at *
      rcases hxy with hxy | ⟨hxy, hxs⟩ <;> rcases hyz with hyz | ⟨hyz, hys⟩
      · have h := compare_isLE_trans x y z (by simp [hxy]) (by simp [hyz])
        cases hxz : compare x z with
        | lt => exact .inl rfl
        | gt => simp [hxz] at h
        | eq =>
            rw [compare_swap, ← eq_of_compare x z hxz, hxy] at hyz
            cases hyz
      · exact .inl (eq_of_compare y z hyz ▸ hxy)
      · exact .inl (eq_of_compare x y hxy ▸ hyz)
      · exact .inr ⟨eq_of_compare x y hxy ▸ hyz, compareList_isLE_trans xs ys zs hxs hys⟩

end

instance : Std.TransOrd Term where
  eq_swap := compare_swap _ _
  isLE_trans := compare_isLE_trans _ _ _

instance : Std.LawfulEqOrd Term where
  compare_self := compare_self _
  eq_of_compare := eq_of_compare _ _

end Term

namespace Predicate

instance : Std.TransOrd Predicate where
  eq_swap {p q} := by
    change (Ord.compare p.name q.name).then _ = ((Ord.compare q.name p.name).then _).swap
    rw [then_swap, ← Term.compareList_swap, ← Std.OrientedOrd.eq_swap]
  isLE_trans := isLE_then_trans Term.compareList (Term.compareList_isLE_trans _ _ _)

instance : Std.LawfulEqOrd Predicate where
  compare_self {p} := by
    change (Ord.compare p.name p.name).then _ = .eq
    rw [Std.ReflOrd.compare_self, Term.compareList_self]
    rfl
  eq_of_compare {p q} h := by
    change (Ord.compare p.name q.name).then _ = .eq at h
    rw [Ordering.then_eq_eq] at h
    cases p
    cases q
    exact congr (congrArg _ (Std.LawfulEqOrd.eq_of_compare h.1)) (Term.eq_of_compareList _ _ h.2)

end Predicate

end Defeasible
