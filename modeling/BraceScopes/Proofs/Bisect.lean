import BraceScopes.Bisect
/-!
Binary search in an array whose keys ascend: it cuts the array into the entries below a key and the
others.
-/
namespace BraceScopes

variable {α : Type}

theorem take_eq_filter_of_cut {xs : List α} {test : α → Bool} {n : Nat}
    (cut : ∀ i x, xs[i]? = some x → (i < n ↔ test x = true)) : xs.take n = xs.filter test := by
  induction xs generalizing n with
  | nil => simp
  | cons x xs ih =>
    have first := cut 0 x rfl
    cases n with
    | zero =>
      have none : ∀ y ∈ x :: xs, ¬ test y = true := by
        intro y hy
        obtain ⟨i, hi⟩ := List.mem_iff_getElem?.mp hy
        exact fun ht => absurd ((cut i y hi).mpr ht) (by omega)
      rw [List.take_zero, List.filter_eq_nil_iff.mpr none]
    | succ n =>
      have hx : test x = true := first.mp (by omega)
      have rest := ih fun i y hi => by simpa using cut (i + 1) y (by simpa using hi)
      rw [List.take_succ_cons, List.filter_cons_of_pos hx, rest]

theorem drop_eq_filter_of_cut {xs : List α} {test : α → Bool} {n : Nat}
    (cut : ∀ i x, xs[i]? = some x → (i < n ↔ test x = true)) :
    xs.drop n = xs.filter fun x => !test x := by
  induction xs generalizing n with
  | nil => simp
  | cons x xs ih =>
    have first := cut 0 x rfl
    cases n with
    | zero =>
      have all : ∀ y ∈ x :: xs, (!test y) = true := by
        intro y hy
        obtain ⟨i, hi⟩ := List.mem_iff_getElem?.mp hy
        have := cut i y hi
        cases ht : test y with
        | false => rfl
        | true => exact absurd (this.mpr ht) (by omega)
      rw [List.drop_zero, List.filter_eq_self.mpr all]
    | succ n =>
      have hx : test x = true := first.mp (by omega)
      have rest := ih fun i y hi => by simpa using cut (i + 1) y (by simpa using hi)
      rw [List.drop_succ_cons, List.filter_cons_of_neg (by simp [hx]), rest]

section SortedArray

variable {key : α → Nat} {xs : Array α}

/-- The number of entries whose key lies below `p`. -/
def rank (key : α → Nat) (xs : Array α) (p : Nat) : Nat :=
  bisect (fun i => xs[i]?.any (key · < p)) 0 xs.size

theorem rank_cut (sorted : xs.toList.Pairwise fun a b => key a < key b) (p i : Nat) (x : α)
    (h : xs.toList[i]? = some x) : i < rank key xs p ↔ decide (key x < p) = true := by
  obtain ⟨hi, hx⟩ := List.getElem?_eq_some_iff.mp h
  have entry : ∀ j (hj : j < xs.size), xs[j]?.any (key · < p) = decide (key xs[j] < p) := by
    intro j hj
    simp [Array.getElem?_eq_getElem hj]
  have down : ∀ a b, a ≤ b → b < xs.size → xs[b]?.any (key · < p) = true →
      xs[a]?.any (key · < p) = true := by
    intro a b hab hb hp
    rw [entry b hb] at hp
    rw [entry a (by omega)]
    rcases Nat.lt_or_eq_of_le hab with hlt | rfl
    · have := List.pairwise_iff_getElem.mp sorted a b (by simp; omega) (by simpa using hb) hlt
      simp only [Array.getElem_toList, decide_eq_true_eq] at this hp ⊢
      omega
    · exact hp
  have hi : i < xs.size := by simpa using hi
  have hx : xs[i] = x := by simpa using hx
  unfold rank
  rw [lt_bisect_iff _ down (Nat.zero_le i) hi, entry i hi, hx]

theorem take_rank (sorted : xs.toList.Pairwise fun a b => key a < key b) (p : Nat) :
    xs.toList.take (rank key xs p) = xs.toList.filter (key · < p) :=
  take_eq_filter_of_cut (rank_cut sorted p)

theorem drop_rank (sorted : xs.toList.Pairwise fun a b => key a < key b) (p : Nat) :
    xs.toList.drop (rank key xs p) = xs.toList.filter fun x => !decide (key x < p) :=
  drop_eq_filter_of_cut (rank_cut sorted p)

/-- The entry that a search for a key ends at has that key, if there is such an entry. -/
theorem filter_at_rank_iff (sorted : xs.toList.Pairwise fun a b => key a < key b) {p : Nat} {x : α} :
    (xs[rank key xs p]?).filter (key · == p) = some x ↔ x ∈ xs ∧ key x = p := by
  have place : xs[rank key xs p]? = (xs.toList.filter fun x => !decide (key x < p)).head? := by
    rw [← drop_rank sorted, List.head?_drop, Array.getElem?_toList]
  rw [place, Option.filter_eq_some_iff]
  constructor
  · rintro ⟨hx, hk⟩
    have := List.mem_of_head? hx
    exact ⟨by simpa using (List.mem_filter.mp this).1, by simpa using hk⟩
  · rintro ⟨hx, hk⟩
    refine ⟨?_, by simpa using hk⟩
    have hmem : x ∈ xs.toList.filter fun x => !decide (key x < p) :=
      List.mem_filter.mpr ⟨by simpa using hx, by simp [hk]⟩
    have order := sorted.filter fun x => !decide (key x < p)
    cases hl : xs.toList.filter fun x => !decide (key x < p) with
    | nil => simp [hl] at hmem
    | cons y ys =>
      rw [hl] at hmem order
      rcases List.mem_cons.mp hmem with rfl | hys
      · rfl
      · have hlt := (List.pairwise_cons.mp order).1 x hys
        have hy : y ∈ xs.toList.filter fun x => !decide (key x < p) := by simp [hl]
        have := (List.mem_filter.mp hy).2
        simp only [Bool.not_eq_true', decide_eq_false_iff_not] at this
        omega

theorem rank_eq_of_getElem (sorted : xs.toList.Pairwise fun a b => key a < key b) {p i : Nat} {x : α}
    (h : xs.toList[i]? = some x) (hx : key x = p) : rank key xs p = i := by
  have hi := rank_cut sorted p i x h
  simp only [hx, Nat.lt_irrefl, decide_false, Bool.false_eq_true, iff_false, Nat.not_lt] at hi
  rcases Nat.lt_or_eq_of_le hi with hlt | heq
  · obtain ⟨hlen, hxi⟩ := List.getElem?_eq_some_iff.mp h
    have hr : rank key xs p < xs.toList.length := by omega
    have order := List.pairwise_iff_getElem.mp sorted _ i hr hlen hlt
    have here := rank_cut sorted p _ _ (List.getElem?_eq_getElem hr)
    rw [hxi, hx] at order
    simp only [Nat.lt_irrefl, decide_eq_true_eq, false_iff] at here
    exact absurd order here
  · exact heq

/-- Changing the entry at the place of a key changes the entry with that key and no other. -/
theorem toList_modify_rank (sorted : xs.toList.Pairwise fun a b => key a < key b) {p : Nat}
    (h : ∃ x ∈ xs, key x = p) (f : α → α) :
    (xs.modify (rank key xs p) f).toList = xs.toList.map fun x => if key x = p then f x else x := by
  obtain ⟨y, hy, hyp⟩ := h
  obtain ⟨j, hj⟩ := List.mem_iff_getElem?.mp (Array.mem_toList_iff.mpr hy)
  have hrank := rank_eq_of_getElem sorted hj hyp
  rw [Array.toList_modify]
  refine List.ext_getElem? fun i => ?_
  rw [List.getElem?_modify, List.getElem?_map, hrank]
  cases hx : xs.toList[i]? with
  | none => simp
  | some x =>
    by_cases hk : key x = p
    · have := rank_eq_of_getElem sorted hx hk
      simp [hk, show j = i by omega]
    · have hne : j ≠ i := by
        rintro rfl
        rw [hj] at hx
        cases hx
        exact hk hyp
      simp [hk, hne]

/-- The entry before the place of a key is the last one below it. -/
theorem getElem_pred_rank (sorted : xs.toList.Pairwise fun a b => key a < key b) {p n : Nat}
    (h : rank key xs p = n + 1) : xs[n]? = (xs.toList.filter (key · < p)).getLast? := by
  have hle : rank key xs p ≤ xs.size := bisect_le _ (Nat.zero_le _)
  have hlast : min (n + 1) xs.toList.length - 1 = n := by
    rw [Array.length_toList]
    omega
  rw [← take_rank sorted, List.getLast?_eq_getElem?, List.length_take, List.getElem?_take, h, hlast,
    if_pos (Nat.lt_succ_self n), Array.getElem?_toList]

end SortedArray

end BraceScopes
