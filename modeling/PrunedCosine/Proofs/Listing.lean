import PrunedCosine.Proofs.Memo

/-! The plan that belongs to an order, a base and a truncation. It needs no session: every
session whose memo was filled by planning gives this plan and no other. -/

namespace PrunedCosine

open Session

namespace Block

/-- The assignments of a block that reads all of its inputs. -/
def listing : (order base truncation : Nat) → (source : Buffer) → List Assignment
  | 0, _, _, _ => []
  | 1, base, truncation, source => pair base truncation source
  | half + 2, base, truncation, source =>
      let truncations := childTruncations (blockSize (half + 2)) truncation
      let odd := match truncations.2 with
        | some last => listing (half + 1) (base + blockSize (half + 1)) last source.other
        | none => []
      (List.range (blockSize (half + 1))).map (openingSum (half + 2) base source) ++
        ((inputPlaces (half + 1) truncations.2).map (openingDifference (half + 2) base source) ++
          (listing (half + 1) base truncations.1 source.other ++
            (odd ++ interleave (half + 2) base truncation source)))

def listingOf (order base : Nat) (truncation : Option Nat) (source : Buffer) :
    List Assignment :=
  match truncation with
  | some last => listing order base last source
  | none => []

def opening (half base : Nat) (odd : Option Nat) (source : Buffer) : List Assignment :=
  (List.range (blockSize half)).map (openingSum (half + 1) base source) ++
    (inputPlaces half odd).map (openingDifference (half + 1) base source)

theorem listing_succ (half base truncation : Nat) (source : Buffer) :
    listing (half + 2) base truncation source =
      opening (half + 1) base (childTruncations (blockSize (half + 2)) truncation).2 source ++
        (listing (half + 1) base (childTruncations (blockSize (half + 2)) truncation).1
            source.other ++
          (listingOf (half + 1) (base + blockSize (half + 1))
              (childTruncations (blockSize (half + 2)) truncation).2 source.other ++
            interleave (half + 2) base truncation source)) := by
  rw [listing, opening, List.append_assoc]
  rfl

theorem gives_assignments (order base truncation : Nat) (source : Buffer) :
    Gives (assignments (order + 1) base truncation source)
      (listing (order + 1) base truncation source) := by
  induction order generalizing base truncation source with
  | zero => exact (gives_note _).bind (gives_pure _)
  | succ half ih =>
    rw [assignments, listing]
    refine (gives_note _).bind ((gives_requiredInputs half _).bind
      ((gives_requiredInputs half _).bind ((ih _ _ _).bind ?_)))
    cases (childTruncations (blockSize (half + 2)) truncation).2 with
    | some last => exact (ih _ _ _).bind (gives_pure _)
    | none => exact (gives_pure []).bind (gives_pure _)

end Block

namespace Plan

def canonical (order base : Nat) (truncation : Option Nat) : Plan where
  order := order
  base := base
  truncation := truncation
  live := (SlotSet.ofList (inputPlaces order truncation)).shifted base
  assignments := Block.listingOf order base truncation .input

theorem gives_build (order base : Nat) (truncation : Option Nat) :
    Gives (build (order + 1) base truncation) (canonical (order + 1) base truncation) := by
  refine (gives_requiredInputs order truncation).bind ?_
  cases truncation with
  | some last =>
    exact (Block.gives_assignments order base last .input).bind
      ((gives_recordPlan _ _ _).bind ((gives_note _).bind (gives_pure _)))
  | none =>
    exact (gives_pure []).bind
      ((gives_recordPlan _ _ _).bind ((gives_note _).bind (gives_pure _)))

theorem checkOrder_ok {order : Nat} {checked : Unit} (accepted : checkOrder order = .ok checked) :
    1 ≤ order ∧ order ≤ maxOrder := by
  unfold checkOrder at accepted
  by_cases small : order < 1
  · simp [small] at accepted
  · by_cases large : order > maxOrder
    · simp [small, large] at accepted
    · omega

theorem validate_ok {order base : Nat} {truncation : Int} {wanted : Option Nat}
    (accepted : validate order base truncation = .ok wanted) :
    (1 ≤ order ∧ order ≤ maxOrder) ∧ base + blockSize order < wordCount ∧
      ((truncation = -1 ∧ wanted = none) ∨
        ∃ last : Nat, truncation = last ∧ wanted = some last ∧ last < blockSize order) := by
  unfold validate at accepted
  cases checked : checkOrder order with
  | error cause => simp [checked] at accepted
  | ok _ =>
    simp only [checked] at accepted
    refine ⟨checkOrder_ok checked, ?_⟩
    split at accepted
    · cases accepted
    · refine ⟨Nat.not_le.mp ‹_›, ?_⟩
      split at accepted
      · cases accepted
        exact Or.inl ⟨‹_›, rfl⟩
      · split at accepted
        · cases accepted
        · split at accepted
          · cases accepted
          · cases accepted
            exact Or.inr ⟨truncation.toNat, by omega, rfl, by omega⟩

theorem validate_order {order base : Nat} {truncation : Int} {wanted : Option Nat}
    (accepted : validate order base truncation = .ok wanted) : 1 ≤ order ∧ order ≤ maxOrder :=
  (validate_ok accepted).1

theorem validate_bound {order base last : Nat} {truncation : Int}
    (accepted : validate order base truncation = .ok (some last)) : last < blockSize order := by
  obtain ⟨_, _, ⟨_, none⟩ | ⟨_, _, same, bound⟩⟩ := validate_ok accepted
  · cases none
  · cases same
    exact bound

theorem validate_bounds {order base : Nat} {truncation : Int} {wanted : Option Nat}
    (accepted : validate order base truncation = .ok wanted) :
    ∀ last ∈ wanted, last < blockSize order := by
  intro last same
  rw [Option.mem_def.mp same] at accepted
  exact validate_bound accepted

end Plan

namespace Session

/-- The sessions whose memo was filled by planning alone. What else happened in them, to
their statistics and events, does not matter. -/
inductive Planned : Session → Prop where
  | fresh : Planned fresh
  | plan {session : Session} (order base : Nat) (truncation : Int) :
      Planned session → Planned ((plan order base truncation).run session).2
  | requiredInputs {session : Session} (order : Nat) (truncation : Option Nat) :
      1 ≤ order → Planned session → Planned (requiredInputs order truncation session).2
  | other {session later : Session} :
      Planned session → later.memo = session.memo → Planned later

theorem plan_of_accepted {order base : Nat} {truncation : Int} {wanted : Option Nat}
    (accepted : Plan.validate order base truncation = .ok wanted) (session : Session) :
    (PrunedCosine.plan order base truncation).run session =
      (.ok (Plan.build order base wanted session).1, (Plan.build order base wanted session).2) := by
  rw [PrunedCosine.plan, accepted]
  rfl

theorem plan_of_refused {order base : Nat} {truncation : Int} {cause : Error}
    (refused : Plan.validate order base truncation = .error cause) (session : Session) :
    (PrunedCosine.plan order base truncation).run session = (.error cause, session) := by
  rw [PrunedCosine.plan, refused]
  rfl

theorem Planned.complete {session : Session} (planned : Planned session) :
    session.memo.Complete := by
  induction planned with
  | fresh => exact Memo.complete_empty
  | @plan session order base truncation _ ih =>
    cases accepted : Plan.validate order base truncation with
    | error cause =>
      rw [plan_of_refused accepted]
      exact ih
    | ok wanted =>
      rw [plan_of_accepted accepted]
      have positive := (Plan.validate_order accepted).1
      obtain ⟨half, rfl⟩ := Nat.exists_eq_add_of_le' positive
      exact (Plan.gives_build half base wanted session ih).2
  | @requiredInputs session order truncation positive _ ih =>
    obtain ⟨half, rfl⟩ := Nat.exists_eq_add_of_le' positive
    exact (gives_requiredInputs half truncation session ih).2
  | other _ same ih => exact same ▸ ih

theorem Planned.build_eq {session : Session} (planned : Planned session) {order : Nat}
    (positive : 1 ≤ order) (base : Nat) (truncation : Option Nat) :
    (Plan.build order base truncation session).1 = Plan.canonical order base truncation := by
  obtain ⟨half, rfl⟩ := Nat.exists_eq_add_of_le' positive
  exact (Plan.gives_build half base truncation session planned.complete).1

end Session

/-- The plans that planning gives for an order, a base and a truncation in the sessions whose
memo was filled by planning. `build` takes any parameters, `plan` checks them first. -/
inductive Plan.Obtained (order base : Nat) (truncation : Option Nat) : Plan → Prop where
  | build {session : Session} :
      session.Planned → Obtained order base truncation (Plan.build order base truncation session).1
  | plan {session : Session} {given : Int} {result : Plan} :
      session.Planned → Plan.validate order base given = .ok truncation →
      ((PrunedCosine.plan order base given).run session).1 = .ok result →
      Obtained order base truncation result

theorem Plan.Obtained.eq_canonical {order base : Nat} {truncation : Option Nat} {result : Plan}
    (obtained : Plan.Obtained order base truncation result) (positive : 1 ≤ order) :
    result = Plan.canonical order base truncation := by
  cases obtained with
  | build planned => exact planned.build_eq positive base truncation
  | plan planned accepted given =>
    rw [Session.plan_of_accepted accepted] at given
    exact (Except.ok.inj given).symm.trans (planned.build_eq positive base truncation)

end PrunedCosine
