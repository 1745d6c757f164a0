import PrunedCosine.Proofs.Cosine
import PrunedCosine.Proofs.Frame

/-! The halves of a block are independent. Everything the even half reads or writes lies in the
first half of the indices of the block, everything of the odd half in the second; so their
assignments may be shuffled, and what they compute stays the same. -/

namespace PrunedCosine

/-- The third list holds the elements of the first two, those of each list in their order. -/
inductive Shuffle {ι : Type} : List ι → List ι → List ι → Prop where
  | nil : Shuffle [] [] []
  | left {item : ι} {first second mixed : List ι} :
      Shuffle first second mixed → Shuffle (item :: first) second (item :: mixed)
  | right {item : ι} {first second mixed : List ι} :
      Shuffle first second mixed → Shuffle first (item :: second) (item :: mixed)

namespace Shuffle

variable {ι : Type}

theorem symm {first second mixed : List ι} (shuffle : Shuffle first second mixed) :
    Shuffle second first mixed := by
  induction shuffle with
  | nil => exact .nil
  | left _ ih => exact .right ih
  | right _ ih => exact .left ih

theorem nil_left (list : List ι) : Shuffle [] list list := by
  induction list with
  | nil => exact .nil
  | cons item rest ih => exact .right ih

theorem append (first second : List ι) : Shuffle first second (first ++ second) := by
  induction first with
  | nil => exact nil_left second
  | cons item rest ih => exact .left ih

end Shuffle

theorem Buffers.steps_shuffle {α : Type} [Add α] [Sub α] [Mul α] (table : ScaleTable α)
    {first second mixed : List Assignment} (shuffle : Shuffle first second mixed)
    (apart : ∀ left ∈ first, ∀ right ∈ second, left.Apart right) (buffers final : Buffers α) :
    buffers.steps table mixed = .ok final ↔
      buffers.steps table (first ++ second) = .ok final := by
  induction shuffle generalizing buffers with
  | nil => exact Iff.rfl
  | @left assignment first second mixed _ ih =>
    obtain ⟨_, others⟩ := List.forall_mem_cons.mp apart
    rw [List.cons_append, steps_cons_eq_ok, steps_cons_eq_ok]
    simp only [ih others]
  | @right assignment first second mixed _ ih =>
    have others : ∀ left ∈ first, ∀ right ∈ second, left.Apart right :=
      fun left inFirst right inSecond => apart left inFirst right (List.mem_cons_of_mem _ inSecond)
    have passed : ∀ left ∈ first, assignment.Apart left :=
      fun left inFirst => (apart left inFirst assignment (List.mem_cons_self ..)).symm
    rw [← steps_postpone table passed, steps_cons_eq_ok, steps_cons_eq_ok]
    simp only [ih others]

/-- In sessions whose memo was filled by planning, a block of which more than the first coefficient
is wanted has the assignments of its two halves between those that open and those that close it.
However the assignments of the halves are shuffled, and whatever the buffers hold, all of them can
be carried out exactly if those of the even half and then those of the odd half can be, and then
they leave the same buffers. -/
theorem halves_independent {α : Type} [Add α] [Sub α] [Mul α] (table : ScaleTable α)
    {order truncation : Nat} (two : 2 ≤ order) (wanted : 1 ≤ truncation)
    (bound : truncation < 2 ^ order) (base : Nat) (source : Buffer) {session : Session}
    (planned : session.Planned) :
    ∃ last even odd, childTruncations (2 ^ order) truncation = (truncation / 2, some last) ∧
      even = (Block.assignments (order - 1) base (truncation / 2) source.other session).1 ∧
      odd = (Block.assignments (order - 1) (base + 2 ^ (order - 1)) last source.other session).1 ∧
      (Block.assignments order base truncation source session).1 =
        Block.opening (order - 1) base (some last) source ++
          (even ++ (odd ++ Block.interleave order base truncation source)) ∧
      ∀ mixed, Shuffle even odd mixed → ∀ buffers final : Buffers α,
        buffers.steps table mixed = .ok final ↔
          buffers.steps table (even ++ odd) = .ok final := by
  obtain ⟨half, rfl⟩ := Nat.exists_eq_add_of_le' two
  have lists {order base truncation : Nat} {source : Buffer} :
      (Block.assignments (order + 1) base truncation source session).1 =
        Block.listing (order + 1) base truncation source :=
    (Block.gives_assignments order base truncation source session planned.complete).1
  simp only [← blockSize_eq_pow, show half + 2 - 1 = half + 1 from rfl] at bound ⊢
  have split := childTruncations_of_lt bound
  rw [if_neg (by omega)] at split
  have whole := Block.listing_succ half base truncation source
  rw [split] at whole
  refine ⟨_, _, _, split, lists.symm, lists.symm, lists.trans whole, fun mixed shuffle => ?_⟩
  apply Buffers.steps_shuffle table shuffle
  intro left inEven right inOdd
  exact (Block.listing_within _ _ _ _ left inEven).apart
    (Block.listing_within _ _ _ _ right inOdd) le_rfl

theorem halves_independent_four :
    2 ≤ 2 ∧ 1 ≤ 3 ∧ 3 < 2 ^ 2 ∧ Session.Planned ((plan 4 0 9).run .fresh).2 ∧
      ∃ last even odd, childTruncations 4 3 = (1, some last) ∧
        even = (Block.assignments 1 0 1 .work ((plan 4 0 9).run .fresh).2).1 ∧
        odd = (Block.assignments 1 2 last .work ((plan 4 0 9).run .fresh).2).1 ∧
        (Block.assignments 2 0 3 .input ((plan 4 0 9).run .fresh).2).1 =
          Block.opening 1 0 (some last) .input ++
            (even ++ (odd ++ Block.interleave 2 0 3 .input)) ∧
        ∀ final : Buffers Float,
          Buffers.steps (.ofOrder 2)
              ⟨#[none, none, none, none], #[some 1, some 2, some 3, some 4]⟩ (odd ++ even) =
            .ok final ↔
          Buffers.steps (.ofOrder 2)
              ⟨#[none, none, none, none], #[some 1, some 2, some 3, some 4]⟩ (even ++ odd) =
            .ok final := by
  have planned : Session.Planned ((plan 4 0 9).run .fresh).2 := .plan 4 0 9 .fresh
  obtain ⟨last, even, odd, split, inEven, inOdd, whole, same⟩ :=
    halves_independent (.ofOrder 2 : ScaleTable Float) (show 2 ≤ 2 by decide)
      (show 1 ≤ 3 by decide) (by decide) 0 .input planned
  exact ⟨by decide, by decide, by decide, planned, last, even, odd, split, inEven, inOdd, whole,
    same _ (Shuffle.append odd even).symm _⟩

end PrunedCosine
