import Mathlib.Algebra.Group.Nat.Defs
import JowiAsio.Lib.Atomic
import JowiAsio.Lib.Machine

/-!
`LockFreeQueue` (`lockfree_queue.cc`) as a machine of interleaved calls.

Every operation on an atomic cell is one step: a load, a store or a
compare-exchange on a `next` cell or on `__tail`, and a read-modify-write
of `__size`. The computation between two of them belongs to the step
before. A thread is idle or stands before the next such operation of its
call, with the locals of that call.

A node is named by the number of its allocation. Number `0` is `__head`,
to which `__tail` points through a `SharedPtr` with a deleter that does
nothing. Numbers are not used again: a thread compares a `next` cell only
with a node it holds a `SharedPtr` to, so the address of that node is not
given out a second time before the comparison. The weak compare-exchange
of a `SharedPtr` cell retries by itself until it has seen another pointer,
so on these cells it does not fail spuriously.

`linked`, `removed` and `history` are not fields of the class. They
record the nodes in the order of the compare-exchange that linked them,
the nodes in the order of the compare-exchange on `__head.next` that
removed them, and what the calls returned.
-/

namespace JowiAsio.LockFreeQueue

open Lib

/-- The calls a thread can make. -/
inductive Call (α : Type)
  | push (v : α)
  | pop
  | clear
  | size
  deriving DecidableEq

/-- What a call returned. -/
inductive Event (α : Type)
  | pushed
  | popped (r : Option α)
  | cleared
  | sized (n : ℕ)
  deriving DecidableEq

/-- Which caller of `__pop` is running. -/
inductive Popper
  | pop
  | clear
  deriving DecidableEq

/-- Where a thread stands: before the operation of the same name. The
locals are `new_node`, `tail`, `head_next` and `head_next_next`. -/
inductive Pc
  | idle
  | loadTail (newNode : ℕ)
  | linkCas (newNode tail : ℕ)
  | storeTail (newNode : ℕ)
  | addSize (newNode : ℕ)
  | loadHead (k : Popper)
  | resetTail (k : Popper)
  | loadNext (k : Popper) (headNext : ℕ)
  | headCas (k : Popper) (headNext : ℕ) (headNextNext : Option ℕ)
  | subSize (k : Popper) (headNext : ℕ)
  | resetNext (k : Popper) (headNext : ℕ)
  | loadSize
  deriving DecidableEq

structure State (Tid α : Type) where
  next : ℕ → Option ℕ
  value : ℕ → Option α
  /-- The number of nodes there are, `__head` included. -/
  allocated : ℕ
  tail : ℕ
  size : ℕ
  pc : Tid → Pc
  linked : List ℕ
  removed : List ℕ
  history : List (Event α)

inductive Label (Tid α : Type)
  | call (t : Tid) (c : Call α)
  | exec (t : Tid)
  deriving DecidableEq

/-- `LockFreeQueue()`. -/
def init (Tid α : Type) : State Tid α where
  next _ := none
  value _ := none
  allocated := 1
  tail := 0
  size := 0
  pc _ := .idle
  linked := []
  removed := []
  history := []

variable {Tid α : Type} [DecidableEq Tid]

def State.setPc (s : State Tid α) (t : Tid) (p : Pc) : State Tid α :=
  { s with pc := Function.update s.pc t p }

/-- The call of thread `t` returns. -/
def State.ret (s : State Tid α) (t : Tid) (ev : Event α) : State Tid α :=
  { s with pc := Function.update s.pc t .idle, history := s.history ++ [ev] }

def State.setNext (s : State Tid α) (a : ℕ) (b : Option ℕ) : State Tid α :=
  { s with next := Function.update s.next a b }

def State.setTail (s : State Tid α) (a : ℕ) : State Tid α := { s with tail := a }

/-- `make_shared<NodeType>(v)`. -/
def State.makeNode (s : State Tid α) (v : α) : State Tid α :=
  { s with value := Function.update s.value s.allocated (some v), allocated := s.allocated + 1 }

/-- The compare-exchange that links `n` behind `a` succeeds. -/
def State.link (s : State Tid α) (a n : ℕ) : State Tid α :=
  { s with next := Function.update s.next a (some n), linked := s.linked ++ [n] }

/-- The compare-exchange on `__head.next` replaces `n` by `o`. -/
def State.unlink (s : State Tid α) (n : ℕ) (o : Option ℕ) : State Tid α :=
  { s with next := Function.update s.next 0 o, removed := s.removed ++ [n] }

/-- `__size.fetch_add(1)`. -/
def State.addSize (s : State Tid α) : State Tid α := { s with size := (s.size + 1) % 2 ^ 64 }

/-- `__size.fetch_sub(1)`. -/
def State.subSize (s : State Tid α) : State Tid α :=
  { s with size := if s.size = 0 then 2 ^ 64 - 1 else s.size - 1 }

/-- The call of thread `t` begins; a `push` allocates its node. -/
def State.begin (s : State Tid α) (t : Tid) : Call α → State Tid α
  | .push v => (s.makeNode v).setPc t (.loadTail s.allocated)
  | .pop => s.setPc t (.loadHead .pop)
  | .clear => s.setPc t (.loadHead .clear)
  | .size => s.setPc t .loadSize

/-- `__pop` has returned `nullopt`. -/
def Popper.empty : Popper → Event α
  | .pop => .popped none
  | .clear => .cleared

/-- `__pop` has returned the node `n`: `pop` moves the value out of it,
and `clear` calls `__pop` again. `move_value` throws on an empty
`__value`, which only `__head` has. -/
def State.popReturned (s : State Tid α) (t : Tid) (n : ℕ) : Popper → Option (State Tid α)
  | .pop => (s.value n).map fun v => s.ret t (.popped (some v))
  | .clear => some (s.setPc t (.loadHead .clear))

def step (s : State Tid α) : Label Tid α → Option (State Tid α)
  | .call t c => if s.pc t = .idle then some (s.begin t c) else none
  | .exec t =>
      match s.pc t with
      | .idle => none
      | .loadTail newNode => some (s.setPc t (.linkCas newNode s.tail))
      -- `tail_next` is null here: `tail = std::move(tail_next)` leaves it so
      | .linkCas newNode tail =>
          match s.next tail with
          | none => some ((s.link tail newNode).setPc t (.storeTail newNode))
          | some tailNext => some (s.setPc t (.linkCas newNode tailNext))
      | .storeTail newNode => some ((s.setTail newNode).setPc t (.addSize newNode))
      | .addSize _ => some (s.addSize.ret t .pushed)
      | .loadHead k =>
          match s.next 0 with
          | none => some (s.setPc t (.resetTail k))
          | some headNext => some (s.setPc t (.loadNext k headNext))
      | .resetTail k => some ((s.setTail 0).ret t k.empty)
      | .loadNext k headNext => some (s.setPc t (.headCas k headNext (s.next headNext)))
      | .headCas k headNext headNextNext =>
          let r := casStrong (s.next 0) (some headNext) headNextNext
          if r.ok then some ((s.unlink headNext headNextNext).setPc t (.subSize k headNext))
          else
            match r.expected with
            | none => some (s.setPc t (.resetTail k))
            | some headNext => some (s.setPc t (.loadNext k headNext))
      | .subSize k headNext => some (s.subSize.setPc t (.resetNext k headNext))
      | .resetNext k headNext => (s.setNext headNext none).popReturned t headNext k
      | .loadSize => some (s.ret t (.sized s.size))

end JowiAsio.LockFreeQueue
