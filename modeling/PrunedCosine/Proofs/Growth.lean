import Mathlib.Data.Finset.Card
import PrunedCosine.Proofs.History
import PrunedCosine.Proofs.Layer

/-! How the memo grows. A search for required inputs misses just the keys that it then stores, and
in a block of each smaller order it can come upon two truncations at most. A memo that holds the
answer for a block knows those for its halves, so listing the assignments of a block whose inputs
were searched for misses nothing. -/

namespace PrunedCosine

namespace Memo

def keys (memo : Memo) : Finset (Nat × Nat) := (memo.entries.map Prod.fst).toFinset

theorem find?_eq_none_iff {memo : Memo} {order truncation : Nat} :
    memo.find? order truncation = none ↔ (order, truncation) ∉ memo.keys := by
  rw [find?, List.lookup_eq_none_iff, keys, List.mem_toFinset, List.mem_map]
  grind

theorem keys_insert (memo : Memo) (order truncation : Nat) (places : List Nat) :
    (memo.insert order truncation places).keys = memo.keys ∪ {(order, truncation)} := by
  ext key
  simp only [keys, insert, List.map_cons, List.toFinset_cons, Finset.mem_insert,
    List.mem_toFinset, List.mem_map, List.mem_filter, Finset.mem_union, Finset.mem_singleton]
  grind

theorem size_insert {memo : Memo} {order truncation : Nat}
    (absent : (order, truncation) ∉ memo.keys) (places : List Nat) :
    (memo.insert order truncation places).size = memo.size + 1 := by
  have others : (memo.entries.filter fun entry => entry.1 != (order, truncation)) =
      memo.entries := by
    rw [List.filter_eq_self]
    intro entry member
    rw [bne_iff_ne]
    intro same
    apply absent
    rw [keys, List.mem_toFinset, ← same]
    exact List.mem_map_of_mem member
  rw [size, Memo.insert, others]
  rfl

/-- Whether a search in the block finds its answer without storing one. -/
def Knows (memo : Memo) : (order : Nat) → (truncation : Option Nat) → Prop
  | half + 2, some last => (half + 2, last) ∈ memo.keys
  | _, _ => True

/-- Where the answer for a block is stored, those for its halves are known. -/
def Closed (memo : Memo) : Prop :=
  ∀ half last, (half + 2, last) ∈ memo.keys →
    memo.Knows (half + 1) (some (childTruncations (blockSize (half + 2)) last).1) ∧
      memo.Knows (half + 1) (childTruncations (blockSize (half + 2)) last).2

theorem Knows.mono {first second : Memo} (more : first.keys ⊆ second.keys) {order : Nat}
    {truncation : Option Nat} (known : first.Knows order truncation) :
    second.Knows order truncation := by
  match order, truncation, known with
  | 0, _, _ | 1, _, _ | _ + 2, none, _ => trivial
  | _ + 2, some _, known => exact more known

theorem Closed.insert {memo : Memo} (closed : memo.Closed) {half last : Nat}
    (even : memo.Knows (half + 1) (some (childTruncations (blockSize (half + 2)) last).1))
    (odd : memo.Knows (half + 1) (childTruncations (blockSize (half + 2)) last).2)
    (places : List Nat) : (memo.insert (half + 2) last places).Closed := by
  have more : memo.keys ⊆ (memo.insert (half + 2) last places).keys := by
    rw [keys_insert]
    exact Finset.subset_union_left
  intro otherHalf otherLast stored
  rw [keys_insert, Finset.mem_union, Finset.mem_singleton] at stored
  rcases stored with stored | same
  · obtain ⟨otherEven, otherOdd⟩ := closed otherHalf otherLast stored
    exact ⟨otherEven.mono more, otherOdd.mono more⟩
  · cases same
    exact ⟨even.mono more, odd.mono more⟩

end Memo

section Reached

/-- The orders and truncations for which a search may have to store a list. -/
def reached : (order : Nat) → (truncation : Option Nat) → Finset (Nat × Nat)
  | half + 2, some last =>
      insert (half + 2, last)
        (reached (half + 1) (some (childTruncations (blockSize (half + 2)) last).1) ∪
          reached (half + 1) (childTruncations (blockSize (half + 2)) last).2)
  | _, _ => ∅

theorem order_le_of_mem_reached {order : Nat} {truncation : Option Nat} {key : Nat × Nat}
    (member : key ∈ reached order truncation) : key.1 ≤ order := by
  induction order using Nat.twoStepInduction generalizing truncation with
  | zero | one => simp [reached] at member
  | more half _ ih =>
    cases truncation with
    | none => simp [reached] at member
    | some last =>
      rw [reached, Finset.mem_insert, Finset.mem_union] at member
      rcases member with rfl | even | odd
      · exact le_rfl
      · exact (ih even).trans (Nat.le_succ _)
      · exact (ih odd).trans (Nat.le_succ _)

end Reached

namespace Session

/-- What happened between two sessions to the memo and to the number of misses: the lists of the
keys `added` were stored, none of which had one, and as often a list was missed. -/
structure Gained (before after : Session) (added : Finset (Nat × Nat)) : Prop where
  fresh : Disjoint before.memo.keys added
  keys : after.memo.keys = before.memo.keys ∪ added
  entries : after.memo.size = before.memo.size + added.card
  misses : after.statistics.misses = before.statistics.misses + added.card

theorem Gained.trans {before middle after : Session} {first second : Finset (Nat × Nat)}
    (gained : Gained before middle first) (later : Gained middle after second) :
    Gained before after (first ∪ second) := by
  have apart := later.fresh
  rw [gained.keys, Finset.disjoint_union_left] at apart
  have card := Finset.card_union_of_disjoint apart.2
  refine ⟨Finset.disjoint_union_right.mpr ⟨gained.fresh, apart.1⟩, ?_, ?_, ?_⟩
  · rw [later.keys, gained.keys, Finset.union_assoc]
  · rw [later.entries, gained.entries, card, Nat.add_assoc]
  · rw [later.misses, gained.misses, card, Nat.add_assoc]

structure Still (before after : Session) : Prop where
  memo : after.memo = before.memo
  misses : after.statistics.misses = before.statistics.misses

theorem Still.gained {before after : Session} (still : Still before after) :
    Gained before after ∅ where
  fresh := Finset.disjoint_empty_right _
  keys := by rw [still.memo, Finset.union_empty]
  entries := by rw [still.memo, Finset.card_empty, Nat.add_zero]
  misses := by rw [still.misses, Finset.card_empty, Nat.add_zero]

def missed (session : Session) : Session :=
  { session with statistics := session.statistics.recordLookup false }

theorem Gained.store {session middle : Session} {added : Finset (Nat × Nat)}
    (gained : Gained session.missed middle added) {order truncation : Nat}
    (missing : (order, truncation) ∉ session.memo.keys) (smaller : ∀ key ∈ added, key.1 < order)
    (places : List Nat) (events : Array Event) :
    Gained session { middle with memo := middle.memo.insert order truncation places, events }
      (insert (order, truncation) added) := by
  have outside : (order, truncation) ∉ added := fun member =>
    absurd (smaller _ member) (Nat.lt_irrefl _)
  have keys : middle.memo.keys = session.memo.keys ∪ added := gained.keys
  have entries : middle.memo.size = session.memo.size + added.card := gained.entries
  have misses : middle.statistics.misses = session.statistics.misses + 1 + added.card :=
    gained.misses
  have absent : (order, truncation) ∉ middle.memo.keys := by
    rw [keys, Finset.mem_union]
    exact not_or.mpr ⟨missing, outside⟩
  have card := Finset.card_insert_of_notMem outside
  refine ⟨Finset.disjoint_insert_right.mpr ⟨missing, gained.fresh⟩, ?_, ?_, ?_⟩
  · rw [Memo.keys_insert, keys, Finset.union_assoc, Finset.union_comm added, Finset.insert_eq]
  · rw [Memo.size_insert absent, entries, card, Nat.add_assoc]
  · dsimp only
    rw [misses, card]
    omega

theorem requiredInputs_of_stored {session : Session} {half last : Nat}
    (stored : (half + 2, last) ∈ session.memo.keys) :
    (requiredInputs (half + 2) (some last) session).2 =
      { session with statistics := session.statistics.recordLookup true } := by
  obtain ⟨places, found⟩ := Option.ne_none_iff_exists'.mp
    fun none => Memo.find?_eq_none_iff.mp none stored
  rw [requiredInputs]
  simp only [bind, StateT.bind, lookUp, found]
  rfl

/-- All that a search does where no list is stored: it searches in the two halves and stores
what comes of that. -/
theorem requiredInputs_of_missing {session : Session} {half last : Nat}
    (absent : (half + 2, last) ∉ session.memo.keys) :
    let truncations := childTruncations (blockSize (half + 2)) last
    let even := (requiredInputs (half + 1) (some truncations.1) session.missed).2
    let odd := (requiredInputs (half + 1) truncations.2 even).2
    ∃ places events, (requiredInputs (half + 2) (some last) session).2 =
      { odd with memo := odd.memo.insert (half + 2) last places, events } := by
  have found := Memo.find?_eq_none_iff.mpr absent
  intro truncations even odd
  rw [requiredInputs]
  simp only [bind, StateT.bind, lookUp, found]
  exact ⟨_, _, rfl⟩

structure Searched (order : Nat) (truncation : Option Nat) (before after : Session) : Prop where
  closed : after.memo.Closed
  known : after.memo.Knows order truncation
  gained : ∃ added ⊆ reached order truncation, Gained before after added

theorem Gained.keys_subset {before after : Session} {added : Finset (Nat × Nat)}
    (gained : Gained before after added) : before.memo.keys ⊆ after.memo.keys := by
  rw [gained.keys]
  exact Finset.subset_union_left

theorem searched_of_known {order : Nat} {truncation : Option Nat} {before after : Session}
    (closed : before.memo.Closed) (known : before.memo.Knows order truncation)
    (still : Still before after) : Searched order truncation before after where
  closed := still.memo ▸ closed
  known := still.memo ▸ known
  gained := ⟨∅, Finset.empty_subset _, still.gained⟩

theorem searched (order : Nat) (truncation : Option Nat) {session : Session}
    (closed : session.memo.Closed) :
    Searched (order + 1) truncation session (requiredInputs (order + 1) truncation session).2 := by
  induction order generalizing session truncation with
  | zero => cases truncation <;> exact searched_of_known closed trivial ⟨rfl, rfl⟩
  | succ half ih =>
    cases truncation with
    | none => exact searched_of_known closed trivial ⟨rfl, rfl⟩
    | some last =>
      by_cases stored : (half + 2, last) ∈ session.memo.keys
      · rw [requiredInputs_of_stored stored]
        exact searched_of_known closed stored ⟨rfl, rfl⟩
      · obtain ⟨places, events, same⟩ := requiredInputs_of_missing stored
        have missed : session.missed.memo.Closed := closed
        have even := ih (some (childTruncations (blockSize (half + 2)) last).1) missed
        have odd := ih (childTruncations (blockSize (half + 2)) last).2 even.closed
        obtain ⟨evenAdded, evenReached, evenGained⟩ := even.gained
        obtain ⟨oddAdded, oddReached, oddGained⟩ := odd.gained
        have within := Finset.union_subset_union evenReached oddReached
        -- what the halves store belongs to smaller blocks
        have smaller : ∀ key ∈ evenAdded ∪ oddAdded, key.1 < half + 2 := by
          intro key member
          rcases Finset.mem_union.mp (within member) with inner | inner <;>
            exact Nat.lt_succ_of_le (order_le_of_mem_reached inner)
        have gained := (evenGained.trans oddGained).store stored smaller places events
        rw [same]
        refine ⟨odd.closed.insert (even.known.mono oddGained.keys_subset) odd.known places, ?_, ?_⟩
        · rw [Memo.Knows, Memo.keys_insert]
          exact Finset.mem_union_right _ (Finset.mem_singleton_self _)
        · exact ⟨_, Finset.insert_subset_insert _ within, gained⟩

section Idle

variable {α β : Type} {memo : Memo}

def Idle (memo : Memo) (action : StateM Session α) : Prop :=
  ∀ session : Session, session.memo = memo → Still session (action session).2

theorem idle_pure (value : α) : Idle memo (pure value) := fun _ _ => ⟨rfl, rfl⟩

theorem Idle.bind {action : StateM Session α} {next : α → StateM Session β}
    (first : Idle memo action) (second : ∀ value, Idle memo (next value)) :
    Idle memo (action >>= next) := by
  intro session same
  have reached := first session same
  have finished := second (action session).1 (action session).2 (reached.memo.trans same)
  exact ⟨finished.memo.trans reached.memo, finished.misses.trans reached.misses⟩

theorem idle_note (event : Event) : Idle memo (note event) := fun _ _ => ⟨rfl, rfl⟩

theorem idle_recordPlan (order : Nat) (truncation : Option Nat) (assignments : List Assignment) :
    Idle memo (recordPlan order truncation assignments) := by
  refine fun session _ => ⟨rfl, ?_⟩
  simp only [recordPlan, Statistics.recordPlan]
  split <;> rfl

theorem idle_requiredInputs {order : Nat} {truncation : Option Nat}
    (known : memo.Knows (order + 1) truncation) :
    Idle memo (requiredInputs (order + 1) truncation) := by
  rintro session rfl
  match order, truncation, known with
  | _, none, _ => exact ⟨rfl, rfl⟩
  | 0, some _, _ => exact ⟨rfl, rfl⟩
  | _ + 1, some _, stored =>
    rw [requiredInputs_of_stored stored]
    exact ⟨rfl, rfl⟩

/-- Where the answer for a block is known, the list of its assignments is made without a miss. -/
theorem idle_assignments (closed : memo.Closed) {order last : Nat}
    (known : memo.Knows (order + 1) (some last)) (base : Nat) (source : Buffer) :
    Idle memo (Block.assignments (order + 1) base last source) := by
  induction order generalizing last base source with
  | zero => exact (idle_note _).bind fun _ => idle_pure _
  | succ half ih =>
    obtain ⟨even, odd⟩ := closed half last known
    rw [Block.assignments]
    refine (idle_note _).bind fun _ => (idle_requiredInputs even).bind fun _ =>
      (idle_requiredInputs odd).bind fun _ => (ih even _ _).bind fun _ => ?_
    cases wanted : (childTruncations (blockSize (half + 2)) last).2 with
    | some next => exact (ih (wanted ▸ odd) _ _).bind fun _ => idle_pure _
    | none => exact (idle_pure []).bind fun _ => idle_pure _

end Idle

theorem idle_finish {memo : Memo} {work : StateM Session (List Assignment)} (idle : Idle memo work)
    (order base : Nat) (truncation : Option Nat) (places : List Nat) :
    Idle memo (do
      let assignments ← work
      let live := (SlotSet.ofList places).shifted base
      Session.recordPlan order truncation assignments
      Session.note (.planned order base truncation assignments.length live.size)
      pure ({ order, base, truncation, live, assignments } : Plan)) :=
  idle.bind fun _ => (idle_recordPlan _ _ _).bind fun _ => (idle_note _).bind fun _ => idle_pure _

/-- Planning searches once; what it does after that misses and stores nothing. -/
theorem still_build {session : Session} (closed : session.memo.Closed) (order base : Nat)
    (truncation : Option Nat) :
    Still (requiredInputs (order + 1) truncation session).2
      (Plan.build (order + 1) base truncation session).2 := by
  have found := searched order truncation closed
  cases truncation with
  | some last =>
    have idle := idle_assignments found.closed found.known base .input
    exact idle_finish idle (order + 1) base (some last) _ _ rfl
  | none => exact idle_finish (idle_pure []) (order + 1) base none _ _ rfl

end Session

namespace Call

open Session

/-- The call is taken, and searches for the inputs of a block of this order which are needed for
the coefficients up to `truncation`. -/
inductive Searches : Call → (order : Nat) → (truncation : Option Nat) → Prop where
  | plan {order base : Nat} {given : Int} {truncation : Option Nat} :
      Plan.validate order base given = .ok truncation →
      Searches (.plan order base given) order truncation
  | requiredInputs {order : Nat} {truncation : Option Nat} :
      1 ≤ order → Searches (.requiredInputs order truncation) order truncation

theorem Searches.positive {call : Call} {order : Nat} {truncation : Option Nat}
    (searches : call.Searches order truncation) : 1 ≤ order := by
  cases searches with
  | plan accepted => exact (Plan.validate_order accepted).1
  | requiredInputs positive => exact positive

theorem Searches.word {call : Call} {order : Nat} {truncation : Option Nat}
    (searches : call.Searches order truncation)
    (asked : call = .requiredInputs order truncation → ∀ last ∈ truncation, last + 1 < wordCount) :
    ∀ last ∈ truncation, last + 1 < wordCount := by
  cases searches with
  | plan accepted =>
    intro last wanted
    have fits := (Plan.validate_ok accepted).2.1
    rw [Option.mem_def.mp wanted] at accepted
    have inside := Plan.validate_bound accepted
    omega
  | requiredInputs positive => exact asked rfl

theorem Searches.still {call : Call} {order : Nat} {truncation : Option Nat}
    (searches : call.Searches order truncation) {session : Session}
    (closed : session.memo.Closed) :
    Still (PrunedCosine.requiredInputs order truncation session).2 (call.perform session).2 := by
  cases searches with
  | @plan _ base given _ accepted =>
    obtain ⟨half, rfl⟩ := Nat.exists_eq_add_of_le' (Plan.validate_order accepted).1
    rw [perform_of_accepted accepted]
    exact still_build closed half base truncation
  | requiredInputs => exact ⟨rfl, rfl⟩

theorem Searches.searched {call : Call} {order : Nat} {truncation : Option Nat}
    (searches : call.Searches order truncation) {session : Session}
    (closed : session.memo.Closed) :
    Searched order truncation session (call.perform session).2 := by
  obtain ⟨half, rfl⟩ := Nat.exists_eq_add_of_le' searches.positive
  obtain ⟨closedAfter, known, added, within, gained⟩ := Session.searched half truncation closed
  have still := searches.still closed
  have all := gained.trans still.gained
  rw [Finset.union_empty] at all
  exact ⟨still.memo ▸ closedAfter, still.memo ▸ known, added, within, all⟩

end Call

open Session

/-- The bound is reached. -/
example : (requiredInputs 4 (some 5) .fresh).2.statistics.misses = 2 * 4 - 3 := by
  decide +kernel

end PrunedCosine
