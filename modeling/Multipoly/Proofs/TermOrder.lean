import Multipoly.Monomial

/-!
# The order of terms

`Powers.order` compares the degrees first and breaks ties slot by slot, and it is a strict total
order on power vectors of any lengths. The laws come from the comparators of the library: the
tie-break is a lexicographic comparison of lists, and the whole order puts two comparisons one
after the other.

Results:
* `Powers.order_eq_compareLex`: the order as two library comparators;
* `Powers.order_eq_iff`: only equal vectors tie;
* `Powers.order_gt_iff`, `Powers.order_lt_trans`, `Powers.order_lt_irrefl`: the laws of a strict
  order;
* `Powers.order_add_right`, `Powers.order_add_left`, `Powers.order_add_lt`: the order of sums of
  vectors.
-/
namespace Multipoly.Powers

/-- The higher number first. -/
def descending (a b : Nat) : Ordering := compare b a

instance : Std.TransCmp descending := @Std.TransCmp.opposite Nat compare _

instance : Std.LawfulEqCmp descending := @Std.LawfulEqCmp.opposite Nat compare _ _

theorem lex_eq_compareLex (u v : Powers) : lex u v = List.compareLex descending u v := by
  induction u generalizing v with
  | nil => cases v <;> rfl
  | cons a u ih =>
    cases v with
    | nil => rfl
    | cons b v => rw [lex, ih, List.compareLex_cons_cons, descending]

theorem order_eq_compareLex :
    order = compareLex (fun u v : Powers => descending u.degree v.degree)
      (List.compareLex descending) := by
  funext u v
  rw [order, lex_eq_compareLex]
  rfl

instance : Std.TransCmp fun u v : Powers => descending u.degree v.degree where
  eq_swap {u v} := @Std.OrientedCmp.eq_swap Nat descending _ u.degree v.degree
  isLE_trans {u v w} := @Std.TransCmp.isLE_trans Nat descending _ u.degree v.degree w.degree

instance : Std.TransCmp order := by
  rw [order_eq_compareLex]
  infer_instance

/-- Only equal vectors tie, whatever their lengths. -/
theorem order_eq_iff {u v : Powers} : order u v = .eq ↔ u = v := by
  constructor
  · intro h
    rw [order_eq_compareLex, compareLex_eq_eq] at h
    exact @Std.LawfulEqCmp.eq_of_compare _ (List.compareLex descending) _ _ _ h.2
  · intro heq
    subst heq
    exact order_self u

theorem order_gt_iff {u v : Powers} : order u v = .gt ↔ order v u = .lt :=
  Std.OrientedCmp.gt_iff_lt

theorem order_lt_trans {u v w : Powers} (huv : order u v = .lt) (hvw : order v w = .lt) :
    order u w = .lt :=
  Std.TransCmp.lt_trans huv hvw

theorem order_lt_irrefl (u : Powers) : order u u ≠ .lt := by
  rw [order_self]
  decide

theorem degree_le_of_order {u v : Powers} (h : order u v = .lt) : v.degree ≤ u.degree := by
  rw [order, Ordering.then_eq_lt] at h
  rcases h with hlt | ⟨heq, -⟩
  · exact Nat.le_of_lt (Nat.compare_eq_lt.1 hlt)
  · exact Nat.le_of_eq (Nat.compare_eq_eq.1 heq)

/-! ## Sums of vectors -/

theorem compare_add_right (a b c : Nat) : compare (a + c) (b + c) = compare a b := by
  simp only [compare, compareOfLessAndEq, Nat.add_lt_add_iff_right, Nat.add_right_cancel_iff]

theorem degree_zeros (n : Nat) : degree (List.replicate n 0) = 0 := by
  induction n with
  | zero => rfl
  | succ n ih => rw [List.replicate_succ, degree, ih]

theorem degree_zipWith_add {u v : Powers} (h : u.length = v.length) :
    degree (List.zipWith (· + ·) u v) = degree u + degree v := by
  induction u generalizing v with
  | nil => rw [List.length_eq_zero_iff.1 h.symm]; rfl
  | cons a u ih =>
    obtain ⟨b, v, rfl⟩ := List.exists_cons_of_length_eq_add_one h.symm
    have hrest := ih (Nat.succ_inj.1 h)
    simp only [List.zipWith_cons_cons, degree]
    omega

theorem lex_add_right {u v w : Powers} (hu : u.length = w.length) (hv : v.length = w.length) :
    lex (List.zipWith (· + ·) u w) (List.zipWith (· + ·) v w) = lex u v := by
  induction w generalizing u v with
  | nil => rw [List.length_eq_zero_iff.1 hu, List.length_eq_zero_iff.1 hv]; rfl
  | cons c w ih =>
    obtain ⟨a, u, rfl⟩ := List.exists_cons_of_length_eq_add_one hu
    obtain ⟨b, v, rfl⟩ := List.exists_cons_of_length_eq_add_one hv
    simp only [List.zipWith_cons_cons, lex, compare_add_right,
      ih (Nat.succ_inj.1 hu) (Nat.succ_inj.1 hv)]

section
variable {n : Nat} {u v w : Powers} (hu : u.length = n) (hv : v.length = n)
  (hw : w.length = n)
include hu hv hw

/-- The same powers added on both sides keep the order. -/
theorem order_add_right :
    order (List.zipWith (· + ·) u w) (List.zipWith (· + ·) v w) = order u v := by
  have hu' := hu.trans hw.symm
  have hv' := hv.trans hw.symm
  rw [order, order, degree_zipWith_add hu', degree_zipWith_add hv', compare_add_right,
    lex_add_right hu' hv']

theorem order_add_left :
    order (List.zipWith (· + ·) w u) (List.zipWith (· + ·) w v) = order u v := by
  have hcomm : ∀ x : Powers, List.zipWith (· + ·) w x = List.zipWith (· + ·) x w := fun _ =>
    List.zipWith_comm_of_comm Nat.add_comm
  rw [hcomm u, hcomm v]
  exact order_add_right hu hv hw

end

/-- Sums are in order when their first summands are and their second summands are not out of
order. -/
theorem order_add_lt {n : Nat} {u u' v v' : Powers} (hu : u.length = n) (hu' : u'.length = n)
    (hv : v.length = n) (hv' : v'.length = n) (h : order u u' = .lt) (h' : (order v v').isLE) :
    order (List.zipWith (· + ·) u v) (List.zipWith (· + ·) u' v') = .lt := by
  rw [← order_add_right hu hu' hv] at h
  rw [← order_add_left hv hv' hu'] at h'
  exact Std.TransCmp.lt_of_lt_of_isLE h h'

end Multipoly.Powers
