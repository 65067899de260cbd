import Defeasible.Session

/-!
Dispatching queries to two pools of workers, so that quick look-ups in the
timeline never wait behind searches. A pool takes a query at once if a worker is
free and otherwise keeps it in a queue of limited capacity, in which there is
always room for one.
-/

namespace Defeasible

variable {Time : Type}

inductive Pool where
  | lookup
  | search
deriving DecidableEq, Repr

namespace Pool

def name : Pool → String
  | .lookup => "lookup"
  | .search => "search"

/-- The pool for a query unless all queries are sent to one pool. -/
def route (everything : Option Pool) (q : Query) : Pool :=
  everything.getD <|
    match q with
    | .time _ => .lookup
    | .goal _ => .search

end Pool

/-- What became of a query: the pool and the answer from it. -/
structure Dispatched where
  pool : Pool
  answer : Except Error Answer

namespace Session

/-- Runs a query on a free worker and waits for the answer. -/
def dispatch (s : Session Time) (everything : Option Pool) (q : Query) :
    Dispatched × Session Time :=
  let pool := Pool.route everything q
  match s.query q with
  | .ok (answer, s) => (⟨pool, .ok answer⟩, s)
  | .error e => (⟨pool, .error e⟩, s)

/-- A query submitted while the only search worker is busy: it was refused, it
is answered already, or it waits. -/
inductive Submission where
  | refused (error : Error)
  | answered (result : Dispatched)
  | waiting (query : Query)

/-- Submits queries while the only search worker is busy. Look-ups are answered
at once; searches wait as long as the queue has room. -/
def submitAll (s : Session Time) (everything : Option Pool) (capacity : Nat) :
    (waiting : Nat) → List Query → List Submission × Session Time
  | _, [] => ([], s)
  | waiting, q :: queries =>
      match Pool.route everything q with
      | .lookup =>
          let (result, s) := s.dispatch everything q
          let (rest, s) := s.submitAll everything capacity waiting queries
          (.answered result :: rest, s)
      | .search =>
          if waiting < capacity then
            let (rest, s) := s.submitAll everything capacity (waiting + 1) queries
            (.waiting q :: rest, s)
          else
            let (rest, s) := s.submitAll everything capacity waiting queries
            (.refused (.queueFull Pool.search.name capacity) :: rest, s)

/-- Lets the worker go through the waiting queries in order. -/
def drain (s : Session Time) (everything : Option Pool) :
    List Submission → List (Except Error Dispatched) × Session Time
  | [] => ([], s)
  | .refused e :: rest =>
      let (results, s) := s.drain everything rest
      (.error e :: results, s)
  | .answered result :: rest =>
      let (results, s) := s.drain everything rest
      (.ok result :: results, s)
  | .waiting q :: rest =>
      let (result, s) := s.dispatch everything q
      let (results, s) := s.drain everything rest
      (.ok result :: results, s)

/-- Submits a backlog while a worker is held after computing the busy query,
and then lets the worker go. -/
def runBacklog (s : Session Time) (everything : Option Pool) (queueCapacity : Nat) (busy : Query)
    (backlog : List Query) : List (Except Error Dispatched) × Session Time :=
  let (_, s) := s.dispatch everything busy
  let (submissions, s) := s.submitAll everything (max 1 queueCapacity) 0 backlog
  s.drain everything submissions

end Session

end Defeasible
