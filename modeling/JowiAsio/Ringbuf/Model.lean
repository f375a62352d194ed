import JowiAsio.Lib.Atomic
import JowiAsio.Lib.Cyclic
import JowiAsio.Lib.Machine
import JowiAsio.Lockfree.TaggedPtr

/-!
`RingbufQueue` (`ringbuf_queue.cc`) as a machine of interleaved calls.

The queue is a counter, which packs the push and the pop index into one
word, and a vector of slots, each one tagged word. Every compare-exchange
or exchange on the counter or on a slot is one step; the computation
between two of them belongs to the step before. A thread is idle or stands
before the next atomic operation of its call, with the locals of that
call. The label of a step says which thread moves and whether a weak
compare-exchange fails spuriously.

`__nodes[i]` is modelled by indexing a list: a step that would index out
of bounds is not possible, and `Pc.access` says which slot a thread is
about to touch.

`history` is not a field of the class. It records, in order, what the
calls returned.
-/

namespace JowiAsio.Ringbuf

open Lib TaggedPtr

/-- The size in bytes of the deleter type `D`, at most the two bytes that
fit beside a six-byte pointer. -/
structure DeleterSize where
  bytes : ℕ
  le_two : bytes ≤ 2
  deriving DecidableEq

/-- A `std::unique_ptr<T, D>` as a value: the address it owns (`0` for
none) and the bytes of its deleter. -/
structure UniquePtr (D : DeleterSize) where
  ptr : Addr
  deleter : BitVec (8 * D.bytes)
  deriving DecidableEq

variable {D : DeleterSize}

/-! ### `RingbufQueueNode` -/

/-- The word `from_pair(ptr.release(), ptr.get_deleter())`. -/
def UniquePtr.word (x : UniquePtr D) : Word := pack x.ptr x.deleter

/-- `RingbufQueueNode::load`: what the word taken out of the slot is
returned as. The slot itself is left holding `null`. -/
def nodeLoad (D : DeleterSize) (w : Word) : Option (UniquePtr D) :=
  if w = null then none else some ⟨addr w, tag 6 D.bytes w⟩

/-- One attempt of the loop of `RingbufQueueNode::blocking_store`, which
always expects `null`. -/
def blockingStore (spurious : Bool) (slot : Word) (x : UniquePtr D) : CasResult Word :=
  casWeak spurious slot null x.word

/-! ### `RingbufQueue` -/

/-- `BitTuple<uint32_t, uint32_t>`: `get<0>()` is the push index and
`get<1>()` the pop index. -/
structure PointerType where
  push : ℕ
  pop : ℕ
  deriving DecidableEq

/-- `(x + 1) % capacity()` in `uint32_t` arithmetic. -/
def advance (capacity x : ℕ) : ℕ := (x + 1) % 2 ^ 32 % capacity

/-- The first guess of `push` and `try_push`: `e_point` and `d_point`. -/
def pushGuess : PointerType × PointerType := (⟨0, 0⟩, ⟨1, 0⟩)

/-- The first guess of `pop`. -/
def popGuess : PointerType × PointerType := (⟨1, 0⟩, ⟨1, 1⟩)

/-- The loop body of `push`, on the counter value the failed
compare-exchange reported. -/
def pushRetry (capacity : ℕ) (e : PointerType) : PointerType × PointerType :=
  let dPushPoint := advance capacity e.push
  if dPushPoint = e.pop then pushGuess else (e, ⟨dPushPoint, e.pop⟩)

/-- The loop body of `try_push`; `none` hands the pointer back. -/
def tryPushRetry (capacity : ℕ) (e : PointerType) : Option (PointerType × PointerType) :=
  let dPushPoint := advance capacity e.push
  if dPushPoint = e.pop then none else some (e, ⟨dPushPoint, e.pop⟩)

/-- The loop body of `pop`; `none` returns `nullopt`. -/
def popRetry (capacity : ℕ) (e : PointerType) : Option (PointerType × PointerType) :=
  let dPopPoint := advance capacity e.pop
  if e.push = e.pop then none else some (e, ⟨e.push, dPopPoint⟩)

/-- The calls a thread can make. -/
inductive Call (D : DeleterSize)
  | push (x : UniquePtr D)
  | tryPush (x : UniquePtr D)
  | pop
  deriving DecidableEq

/-- What a call returned. `tryPushed x back` hands `back` to the caller
of `try_push(x)`; `popped advanced r` is a `pop` that returned `r`, and
`advanced` says whether it moved the pop index first. -/
inductive Event (D : DeleterSize)
  | pushed (x : UniquePtr D)
  | tryPushed (x : UniquePtr D) (back : Option (UniquePtr D))
  | popped (advanced : Bool) (r : Option (UniquePtr D))
  deriving DecidableEq

/-- Which of the two pushes a pending store returns from. -/
inductive PushKind
  | push
  | tryPush
  deriving DecidableEq

def PushKind.returned (x : UniquePtr D) : PushKind → Event D
  | .push => .pushed x
  | .tryPush => .tryPushed x none

/-- Where a thread stands: before the compare-exchange on the counter with
its `e_point` and `d_point`, before an attempt to store into slot `i`, or
before the exchange that empties slot `i`. -/
inductive Pc (D : DeleterSize)
  | idle
  | push (x : UniquePtr D) (e d : PointerType)
  | tryPush (x : UniquePtr D) (e d : PointerType)
  | store (x : UniquePtr D) (kind : PushKind) (i : ℕ)
  | pop (e d : PointerType)
  | take (i : ℕ)
  deriving DecidableEq

/-- The slot a thread accesses with its next step. -/
def Pc.access : Pc D → Option ℕ
  | .store _ _ i | .take i => some i
  | _ => none

structure State (Tid : Type) (D : DeleterSize) where
  nodes : List Word
  counter : PointerType
  pc : Tid → Pc D
  history : List (Event D)

def State.capacity {Tid : Type} (s : State Tid D) : ℕ := s.nodes.length

inductive Label (Tid : Type) (D : DeleterSize)
  | call (t : Tid) (c : Call D)
  | exec (t : Tid) (spurious : Bool)
  deriving DecidableEq

/-- `RingbufQueue(max_size)`. -/
def init (Tid : Type) (D : DeleterSize) (maxSize : ℕ) : State Tid D where
  nodes := List.replicate maxSize null
  counter := ⟨0, 0⟩
  pc _ := .idle
  history := []

def Call.start : Call D → Pc D
  | .push x => .push x pushGuess.1 pushGuess.2
  | .tryPush x => .tryPush x pushGuess.1 pushGuess.2
  | .pop => .pop popGuess.1 popGuess.2

variable {Tid : Type} [DecidableEq Tid]

def State.setPc (s : State Tid D) (t : Tid) (p : Pc D) : State Tid D :=
  { s with pc := Function.update s.pc t p }

/-- The call of thread `t` returns. -/
def State.ret (s : State Tid D) (t : Tid) (ev : Event D) : State Tid D :=
  { s with pc := Function.update s.pc t .idle, history := s.history ++ [ev] }

def State.setCounter (s : State Tid D) (c : PointerType) : State Tid D :=
  { s with counter := c }

def State.setNode (s : State Tid D) (i : ℕ) (w : Word) : State Tid D :=
  { s with nodes := s.nodes.set i w }

def step (s : State Tid D) : Label Tid D → Option (State Tid D)
  | .call t c => if s.pc t = .idle then some (s.setPc t c.start) else none
  | .exec t spurious =>
      match s.pc t with
      | .idle => none
      | .push x e d =>
          let r := casWeak spurious s.counter e d
          if r.ok then some ((s.setCounter r.cell).setPc t (.store x .push e.push))
          else
            let (e, d) := pushRetry s.capacity r.expected
            some (s.setPc t (.push x e d))
      | .tryPush x e d =>
          let r := casWeak spurious s.counter e d
          if r.ok then some ((s.setCounter r.cell).setPc t (.store x .tryPush e.push))
          else
            match tryPushRetry s.capacity r.expected with
            | none => some (s.ret t (.tryPushed x (some x)))
            | some (e, d) => some (s.setPc t (.tryPush x e d))
      | .store x kind i =>
          s.nodes[i]?.map fun slot =>
            let r := blockingStore spurious slot x
            if r.ok then (s.setNode i r.cell).ret t (kind.returned x)
            else s
      | .pop e d =>
          let r := casWeak spurious s.counter e d
          if r.ok then some ((s.setCounter r.cell).setPc t (.take e.pop))
          else
            match popRetry s.capacity r.expected with
            | none => some (s.ret t (.popped false none))
            | some (e, d) => some (s.setPc t (.pop e d))
      | .take i =>
          s.nodes[i]?.map fun slot =>
            (s.setNode i null).ret t (.popped true (nodeLoad D slot))

end JowiAsio.Ringbuf
