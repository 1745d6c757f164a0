import PrunedCosine.Error
import PrunedCosine.Event
import PrunedCosine.Statistics

/-! A session is what lasts from one plan to the next: the memo of required inputs, the
statistics and the events so far. -/

namespace PrunedCosine

structure Memo where
  entries : List ((Nat × Nat) × List Nat)
deriving DecidableEq

namespace Memo

def empty : Memo := ⟨[]⟩

def find? (memo : Memo) (order truncation : Nat) : Option (List Nat) :=
  memo.entries.lookup (order, truncation)

/-- Stores a list, in place of what was stored for the same key. -/
def insert (memo : Memo) (order truncation : Nat) (places : List Nat) : Memo :=
  ⟨((order, truncation), places) :: memo.entries.filter fun entry => entry.1 != (order, truncation)⟩

def size (memo : Memo) : Nat := memo.entries.length

end Memo

structure Session where
  memo : Memo
  statistics : Statistics
  events : Array Event

/-- Work in a session that may fail; what was done before a failure stays done. -/
abbrev Planning := ExceptT Error (StateM Session)

namespace Session

def fresh : Session := ⟨.empty, {}, #[]⟩

def note (event : Event) : StateM Session Unit := fun session =>
  ((), { session with events := session.events.push event })

def lookUp (order truncation : Nat) : StateM Session (Option (List Nat)) := fun session =>
  let found := session.memo.find? order truncation
  (found, { session with statistics := session.statistics.recordLookup found.isSome })

def store (order truncation : Nat) (places : List Nat) : StateM Session Unit := fun session =>
  ((), { session with memo := session.memo.insert order truncation places })

def recordPlan (order : Nat) (truncation : Option Nat) (assignments : List Assignment) :
    StateM Session Unit := fun session =>
  ((), { session with
    statistics := session.statistics.recordPlan order truncation assignments })

end Session

end PrunedCosine
