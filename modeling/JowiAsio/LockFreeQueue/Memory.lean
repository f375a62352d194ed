import Mathlib.Data.Fintype.Basic
import JowiAsio.LockFreeQueue.Transitions

/-!
The queue together with the reference counts of its nodes.

Every node is an allocation with a count. The counted references are those
of the `SharedPtr` locals of the calls, of `__tail` and of the `next`
cells. An operation on a cell takes the references it hands out and gives
the ones it has replaced to the thread, which drops them before it goes on
(`dying`); each drop is a step, `fetch_sub` with the deletion of the node
when the count was one. The deletion destroys the `next` of the node, so
the reference that it holds is the next to be dropped.

The pointers to `__head` have a deleter that does nothing. Their counts
are kept as one here, with one more for the member `__head` itself, so
that it reaches zero when the queue is destroyed. `LockFreeQueueNode` has
its `next` destroyed then too.

`close` is the destruction of the members, `__tail` before `__head`, which
`~LockFreeQueue` does when its call of `clear` has returned. Like any
other destructor it runs when no other call is in progress.
-/

namespace JowiAsio.LockFreeQueue

open Lib

/-- The `SharedPtr` locals of `push` (`new_node` and `tail`), of `clear`
(`node`) and of `__pop` (`head_next` and `head_next_next`). -/
structure Locals where
  newNode : Option ℕ
  tail : Option ℕ
  node : Option ℕ
  headNext : Option ℕ
  headNextNext : Option ℕ
  deriving DecidableEq

def Locals.empty : Locals := ⟨none, none, none, none, none⟩

/-- The nodes the locals point to, in the order in which the locals are
destroyed. -/
def Locals.nodes (l : Locals) : List ℕ :=
  l.headNextNext.toList ++ l.headNext.toList ++ l.node.toList ++ l.tail.toList ++ l.newNode.toList

/-- What a step does to the references: those it takes, the locals after
it, and those it leaves to be dropped. -/
structure Effect where
  retained : List ℕ
  locals : Locals
  released : List ℕ

structure Memory (Tid α : Type) where
  queue : State Tid α
  count : ℕ → ℕ
  /-- The nodes that have been deleted, in this order. -/
  freed : List ℕ
  locals : Tid → Locals
  /-- The references that the thread has yet to drop. -/
  dying : Tid → List ℕ
  /-- The members have been destroyed. -/
  closed : Bool

inductive MemoryLabel (Tid α : Type)
  | queue (a : Label Tid α)
  | drop (t : Tid)
  | close (t : Tid)
  deriving DecidableEq

def initMemory (Tid α : Type) : Memory Tid α where
  queue := init Tid α
  count := Function.update (fun _ => 0) 0 2
  freed := []
  locals _ := .empty
  dying _ := []
  closed := false

variable {Tid α : Type}

/-- What the step of a call does to the references, from what it reads in
`s`. -/
def effect (s : State Tid α) (l : Locals) : Pc → Effect
  | .idle | .subSize _ _ | .loadSize => ⟨[], l, []⟩
  | .loadTail _ => ⟨[s.tail], { l with tail := some s.tail }, []⟩
  | .linkCas newNode tail =>
      match s.next tail with
      | none => ⟨[newNode], l, []⟩
      | some tailNext => ⟨[tailNext], { l with tail := some tailNext }, l.tail.toList⟩
  | .storeTail newNode => ⟨[newNode], l, [s.tail]⟩
  | .addSize _ => ⟨[], .empty, l.nodes⟩
  | .loadHead _ => ⟨(s.next 0).toList, { l with headNext := s.next 0 }, []⟩
  | .resetTail _ => ⟨[0], .empty, s.tail :: l.nodes⟩
  | .loadNext _ headNext =>
      ⟨(s.next headNext).toList, { l with headNextNext := s.next headNext },
        l.headNextNext.toList⟩
  | .headCas _ headNext headNextNext =>
      if s.next 0 = some headNext then ⟨headNextNext.toList, l, [headNext]⟩
      else ⟨(s.next 0).toList, { l with headNext := s.next 0 }, l.headNext.toList⟩
  | .resetNext .pop headNext => ⟨[], .empty, (s.next headNext).toList ++ l.nodes⟩
  -- `clear` gives up the node of the round before
  | .resetNext .clear headNext =>
      ⟨[], { Locals.empty with node := l.headNext },
        (s.next headNext).toList ++ l.headNextNext.toList ++ l.node.toList⟩

variable [DecidableEq Tid]

/-- A call begins; `make_shared` makes the node of a `push` with the count
one. -/
def Memory.called (m : Memory Tid α) (t : Tid) (c : Call α) (q : State Tid α) : Memory Tid α :=
  match c with
  | .push _ =>
      { m with
        queue := q
        count := Function.update m.count m.queue.allocated 1
        locals := Function.update m.locals t
          { Locals.empty with newNode := some m.queue.allocated } }
  | _ => { m with queue := q }

def Memory.executed (m : Memory Tid α) (t : Tid) (q : State Tid α) : Memory Tid α :=
  let e := effect m.queue (m.locals t) (m.queue.pc t)
  { m with
    queue := q
    count := fun n => m.count n + e.retained.count n
    locals := Function.update m.locals t e.locals
    dying := Function.update m.dying t e.released }

/-- `__rcount.fetch_sub(1)` for the node `n`, and its deletion when this was
the last reference. -/
def Memory.dropped (m : Memory Tid α) (t : Tid) (n : ℕ) (rest : List ℕ) : Memory Tid α :=
  if m.count n = 1 then
    { m with
      count := Function.update m.count n 0
      freed := m.freed ++ [n]
      dying := Function.update m.dying t ((m.queue.next n).toList ++ rest) }
  else
    { m with
      count := Function.update m.count n (m.count n - 1)
      dying := Function.update m.dying t rest }

def Memory.closing (m : Memory Tid α) (t : Tid) : Memory Tid α :=
  { m with
    dying := Function.update m.dying t [m.queue.tail, 0]
    closed := true }

/-- No call is in progress and no reference is left to be dropped. -/
def Memory.Quiet (m : Memory Tid α) : Prop := ∀ t, m.queue.pc t = .idle ∧ m.dying t = []

instance [Fintype Tid] (m : Memory Tid α) : Decidable m.Quiet := Fintype.decidableForallFintype

def stepMemory [Fintype Tid] (m : Memory Tid α) : MemoryLabel Tid α → Option (Memory Tid α)
  | .queue (.call t c) =>
      if m.closed = true ∨ m.dying t ≠ [] then none
      else (step m.queue (.call t c)).map (m.called t c)
  | .queue (.exec t) =>
      if m.dying t ≠ [] then none else (step m.queue (.exec t)).map (m.executed t)
  | .drop t =>
      match m.dying t with
      | [] => none
      | n :: rest => some (m.dropped t n rest)
  | .close t => if m.closed = false ∧ m.Quiet then some (m.closing t) else none

end JowiAsio.LockFreeQueue
