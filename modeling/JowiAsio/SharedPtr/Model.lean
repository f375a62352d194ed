import Mathlib.Data.Fintype.Card
import JowiAsio.Lib.Atomic
import JowiAsio.Lib.Machine
import JowiAsio.Lockfree.TaggedPtr

/-!
`SharedPtr` and `std::atomic<SharedPtr>` (`shared_ptr.cc`) as a machine.

Any number of threads make calls on any number of handles and cells. A
step is the begin of a call, its return, or one atomic operation: a
`fetch_add` or a compare-exchange on the count of an `AllocData`, or a
compare-exchange on the tagged word of a cell. What a call still has to do
is its `Pc`. The five loops on the word of a cell have one form, a weak
compare-exchange with an update of its two operands when it fails, and
`Pc.attempt` is the table of them.

A handle object is used by one thread at a time, so a call takes the
handles it works on when it begins and gives them back when it returns.
A parameter that is passed by value is a handle that the caller has made
by a copy or a move before; the call consumes it. The count is a natural
number: each of its owners is an object in memory or a thread, so there
are fewer than `2 ^ 64`. Reading or writing memory that is not there,
that of a freed `AllocData` or of a cell out of its lifetime, is a crash.
-/

namespace JowiAsio.SharedPtr

open Lib TaggedPtr

/-- A `SharedPtr` object: out of its lifetime, holding a pointer to an
`AllocData` (`0` is null), or in use by a call. -/
inductive Handle
  | absent
  | val (p : Addr)
  | busy
  deriving DecidableEq

/-- A `std::atomic<SharedPtr>` object. While its destructor runs no call
may begin on it. -/
inductive CellState
  | absent
  | live (w : Word)
  | dying (w : Word)
  deriving DecidableEq

def CellState.word : CellState → Option Word
  | .absent => none
  | .live w | .dying w => some w

def CellState.setWord (w : Word) : CellState → CellState
  | .absent => .absent
  | .live _ => .live w
  | .dying _ => .dying w

/-- What a call leaves behind: the pointers of the handles it used, and
what `compare_exchange` returns. -/
structure Result (H : Type) where
  writes : List (H × Addr)
  flag : Option Bool
  deriving DecidableEq

/-! ### What a call still has to do -/

inductive Pc (H Cell : Type)
  | ret (r : Result H)
  /-- `AllocData::copy`: `fetch_add` on the count of `p` -/
  | incr (p : Addr) (k : Pc H Cell)
  /-- the loop of `Deallocator` on `p` -/
  | drop (p : Addr) (cur des : ℕ) (k : Pc H Cell)
  /-- the first loop of `load`, for the handle `h` -/
  | load (c : Cell) (cur des : Word) (h : H)
  /-- the second loop of `load` -/
  | loadDown (c : Cell) (cur des : Word) (h : H)
  /-- the loop of `exchange`, which returns the handle `h` -/
  | exchange (c : Cell) (cur des : Word) (h : H)
  /-- the same, called by `store` with the parameter `p` -/
  | store (c : Cell) (cur des : Word) (p : Addr) (closing : Bool)
  /-- the first loop of `compare_exchange`, where `e` holds `pe` and `d`
  holds `pd`; `wrapped` when `compare_exchange_weak` or `_strong` calls it,
  with a `d` of its own that also holds `pd` -/
  | cas (c : Cell) (cur des : Word) (e : H) (pe pd : Addr) (wrapped : Bool)
  /-- the second loop of `compare_exchange` -/
  | casDown (c : Cell) (cur des : Word) (k : Pc H Cell)
  deriving DecidableEq

section

variable {H Cell : Type}

/-- `AllocData::copy` -/
def Pc.copy (p : Addr) (k : Pc H Cell) : Pc H Cell := if p = 0 then k else .incr p k

/-- A `unique_ptr` that holds `p` calls its `Deallocator`. -/
def Pc.dealloc (p : Addr) (k : Pc H Cell) : Pc H Cell := if p = 0 then k else .drop p 1 0 k

/-- `compare_exchange` returns, `d` is destroyed, and so is that of the
caller. -/
def Pc.casReturn (e : H) (p pd : Addr) (wrapped b : Bool) : Pc H Cell :=
  if wrapped then .dealloc pd (.ret ⟨[(e, p)], some b⟩) else .ret ⟨[(e, p)], some b⟩

/-- A weak compare-exchange on the word of a cell in a loop. -/
structure Attempt (H Cell : Type) where
  cell : Cell
  cur : Word
  des : Word
  /-- when it succeeds -/
  won : Pc H Cell
  /-- when it fails, and `cur` has become `w` -/
  lost : Word → Pc H Cell
  /-- the destructor of the cell is done with it -/
  closes : Bool := false

/-- `from_pair(w.raw_ptr(), w.tag() + 1)` -/
def tagUp (w : Word) : Word := pack (addr w) (tag 6 2 w + 1)

/-- `from_pair(w.raw_ptr(), w.tag() - 1)` -/
def tagDown (w : Word) : Word := pack (addr w) (tag 6 2 w - 1)

/-- `from_pair(p, 0)` -/
def untagged (p : Addr) : Word := pack p (0 : BitVec (8 * 2))

def Pc.attempt : Pc H Cell → Option (Attempt H Cell)
  | .load c cur des h => some
      { cell := c, cur := cur, des := des
        won := .copy (addr des) (.loadDown c des (tagDown des) h)
        lost := fun w => .load c w (tagUp w) h }
  | .loadDown c cur des h => some
      { cell := c, cur := cur, des := des
        won := .ret ⟨[(h, addr des)], none⟩
        lost := fun w => .loadDown c w (tagDown w) h }
  | .exchange c cur des h => some
      { cell := c, cur := cur, des := des
        won := .ret ⟨[(h, addr cur)], none⟩
        lost := fun w => .exchange c (untagged (addr w)) des h }
  | .store c cur des p closing => some
      { cell := c, cur := cur, des := des, closes := closing
        won := .dealloc (addr cur) (.dealloc p (.ret ⟨[], none⟩))
        lost := fun w => .store c (untagged (addr w)) des p closing }
  | .cas c cur des e pe pd wrapped => some
      { cell := c, cur := cur, des := des
        won :=
          if tag 6 2 des = 0 then .dealloc (addr cur) (.casReturn e pe pd wrapped true)
          -- `e` takes the pointer first, and its count is raised after that
          else .dealloc pe (.copy (addr des) (.casDown c des (tagDown des)
            (.dealloc pd (.casReturn e (addr des) pd wrapped false))))
        lost := fun w =>
          if addr w = pe then .cas c (untagged pe) (untagged pd) e pe pd wrapped
          else .cas c w (tagUp w) e pe pd wrapped }
  | .casDown c cur des k => some
      { cell := c, cur := cur, des := des
        won := k
        lost := fun w => .casDown c w (tagDown w) k }
  | _ => none

/-- The cell that a call works on. -/
def Pc.cell : Pc H Cell → Option Cell
  | .ret _ => none
  | .incr _ k | .drop _ _ _ k => k.cell
  | .load c _ _ _ | .loadDown c _ _ _ | .exchange c _ _ _ | .store c _ _ _ _
  | .cas c _ _ _ _ _ _ | .casDown c _ _ _ => some c

/-- Between the increment of a tag and its decrement: the cell, and the
pointer that was in it. -/
def Pc.deferred : Pc H Cell → Option (Cell × Addr)
  | .loadDown c cur _ _ | .casDown c cur _ _ => some (c, addr cur)
  | .incr _ k | .drop _ _ _ k => k.deferred
  | _ => none

end

/-! ### States and steps -/

structure State (Tid H Cell : Type) where
  handles : H → Handle
  cells : Cell → CellState
  /-- the counts of the `AllocData` objects -/
  heap : Addr → Option ℕ
  pcs : Tid → Option (Pc H Cell)
  /-- what the last call of a thread returned, if it was a
  `compare_exchange` -/
  flags : Tid → Option Bool
  crashed : Bool

/-- The calls. A constructor of `SharedPtr` makes an `AllocData` at the
address `p`, or none when it is given a null pointer. -/
inductive Op (H Cell : Type)
  | construct (h : H) (p : Addr)
  | copy (h o : H)
  | move (h o : H)
  | copyAssign (h o : H)
  | moveAssign (h o : H)
  | reset (h : H)
  | destroy (h : H)
  | atomic (c : Cell) (d : H)
  | load (c : Cell) (h : H)
  | exchange (c : Cell) (d h : H)
  | store (c : Cell) (d : H)
  | compareExchange (c : Cell) (e d : H)
  | compareExchangeWeak (c : Cell) (e d : H)
  | compareExchangeStrong (c : Cell) (e d : H)
  | destroyAtomic (c : Cell)
  deriving DecidableEq

/-- A thread begins a call or goes on with one, in which a weak
compare-exchange may fail spuriously. -/
inductive Act (H Cell : Type)
  | begin (op : Op H Cell)
  | go (spurious : Bool)
  deriving DecidableEq

section

variable {Tid H Cell : Type} [DecidableEq Tid] [DecidableEq H] [DecidableEq Cell]

namespace State

def goto (s : State Tid H Cell) (t : Tid) (pc : Pc H Cell) : State Tid H Cell :=
  { s with pcs := Function.update s.pcs t (some pc) }

def setHandle (s : State Tid H Cell) (h : H) (x : Handle) : State Tid H Cell :=
  { s with handles := Function.update s.handles h x }

def setCell (s : State Tid H Cell) (c : Cell) (x : CellState) : State Tid H Cell :=
  { s with cells := Function.update s.cells c x }

def setHeap (s : State Tid H Cell) (p : Addr) (n : Option ℕ) : State Tid H Cell :=
  { s with heap := Function.update s.heap p n }

def crash (s : State Tid H Cell) : State Tid H Cell := { s with crashed := true }

/-- The call of `t` returns. -/
def finish (s : State Tid H Cell) (t : Tid) (r : Result H) : State Tid H Cell :=
  { s with
    handles := r.writes.foldl (fun hs w => Function.update hs w.1 (.val w.2)) s.handles
    pcs := Function.update s.pcs t none
    flags := Function.update s.flags t r.flag }

/-- One compare-exchange on the word of a cell. -/
def attempt (s : State Tid H Cell) (t : Tid) (spurious : Bool) (a : Attempt H Cell) :
    State Tid H Cell :=
  match (s.cells a.cell).word with
  | none => s.crash
  | some w =>
      let r := casWeak spurious w a.cur a.des
      if r.ok then
        (s.setCell a.cell (if a.closes then .absent else (s.cells a.cell).setWord r.cell)).goto
          t a.won
      else s.goto t (a.lost r.expected)

/-- One compare-exchange in the loop of `Deallocator`. -/
def dealloc (s : State Tid H Cell) (t : Tid) (spurious : Bool) (p : Addr) (cur des : ℕ)
    (k : Pc H Cell) : State Tid H Cell :=
  match s.heap p with
  | none => s.crash
  | some n =>
      let r := casWeak spurious n cur des
      if r.ok then
        (s.setHeap p (if cur = 1 ∧ des = 0 then none else some r.cell)).goto t k
      else s.goto t (.drop p r.expected (r.expected - 1) k)

/-- One step of a call in progress. -/
def exec (s : State Tid H Cell) (t : Tid) (spurious : Bool) : Pc H Cell → State Tid H Cell
  | .ret r => s.finish t r
  | .incr p k =>
      match s.heap p with
      | none => s.crash
      | some n => (s.setHeap p (some (n + 1))).goto t k
  | .drop p cur des k => s.dealloc t spurious p cur des k
  | pc =>
      match pc.attempt with
      | some a => s.attempt t spurious a
      | none => s

end State

variable [Fintype Tid]

/-- The begin of a call, when its operands are there. -/
def begin (s : State Tid H Cell) (t : Tid) : Op H Cell → Option (State Tid H Cell)
  | .construct h p =>
      if s.handles h = .absent ∧ s.heap p = none then
        let s := if p = 0 then s else s.setHeap p (some 1)
        some ((s.setHandle h .busy).goto t (.ret ⟨[(h, p)], none⟩))
      else none
  | .copy h o =>
      match s.handles h, s.handles o with
      | .absent, .val p => some (((s.setHandle h .busy).setHandle o .busy).goto t
          (.copy p (.ret ⟨[(o, p), (h, p)], none⟩)))
      | _, _ => none
  | .move h o =>
      match s.handles h, s.handles o with
      | .absent, .val p => some (((s.setHandle h .busy).setHandle o .busy).goto t
          (.ret ⟨[(o, 0), (h, p)], none⟩))
      | _, _ => none
  | .copyAssign h o =>
      match s.handles h, s.handles o with
      | .val p, .val q => some (((s.setHandle h .busy).setHandle o .busy).goto t
          (.copy q (.dealloc p (.ret ⟨if h = o then [(h, q)] else [(o, q), (h, q)], none⟩))))
      | _, _ => none
  | .moveAssign h o =>
      match s.handles h, s.handles o with
      | .val p, .val q =>
          -- a handle that is moved to itself is null when it takes the pointer back
          let p := if h = o then 0 else p
          some (((s.setHandle h .busy).setHandle o .busy).goto t
            (.dealloc p (.ret ⟨if h = o then [(h, q)] else [(o, 0), (h, q)], none⟩)))
      | _, _ => none
  | .reset h =>
      match s.handles h with
      | .val p => some ((s.setHandle h .busy).goto t (.dealloc p (.ret ⟨[(h, 0)], none⟩)))
      | _ => none
  | .destroy h =>
      match s.handles h with
      | .val p => some ((s.setHandle h .absent).goto t (.dealloc p (.ret ⟨[], none⟩)))
      | _ => none
  | .atomic c d =>
      match s.cells c, s.handles d with
      | .absent, .val p => some (((s.setHandle d .absent).setCell c (.live (untagged p))).goto t
          (.ret ⟨[], none⟩))
      | _, _ => none
  | .load c h =>
      match s.cells c, s.handles h with
      | .live _, .absent => some ((s.setHandle h .busy).goto t
          (.load c null (pack 0 (1 : BitVec (8 * 2))) h))
      | _, _ => none
  | .exchange c d h =>
      match s.cells c, s.handles d, s.handles h with
      | .live _, .val p, .absent => some (((s.setHandle d .absent).setHandle h .busy).goto t
          (.exchange c null (untagged p) h))
      | _, _, _ => none
  | .store c d =>
      match s.cells c, s.handles d with
      | .live _, .val p => some ((s.setHandle d .absent).goto t
          (.copy p (.store c null (untagged p) p false)))
      | _, _ => none
  | .compareExchange c e d =>
      match s.cells c, s.handles e, s.handles d with
      | .live _, .val pe, .val pd =>
          if e = d then none
          else some (((s.setHandle e .busy).setHandle d .absent).goto t
            (.cas c (untagged pe) (untagged pd) e pe pd false))
      | _, _, _ => none
  | .compareExchangeWeak c e d | .compareExchangeStrong c e d =>
      match s.cells c, s.handles e, s.handles d with
      | .live _, .val pe, .val pd =>
          if e = d then none
          else some (((s.setHandle e .busy).setHandle d .absent).goto t
            (.copy pd (.cas c (untagged pe) (untagged pd) e pe pd true)))
      | _, _, _ => none
  | .destroyAtomic c =>
      match s.cells c with
      | .live w =>
          -- the cell is destroyed when no other call on it is pending
          if ∀ u, (s.pcs u).bind Pc.cell ≠ some c then
            some ((s.setCell c (.dying w)).goto t (.store c null (untagged 0) 0 true))
          else none
      | _ => none

/-- One step of the thread `t`. -/
def step (s : State Tid H Cell) : Tid × Act H Cell → Option (State Tid H Cell)
  | (t, .begin op) => if s.crashed ∨ (s.pcs t).isSome then none else begin s t op
  | (t, .go spurious) => if s.crashed then none else (s.pcs t).map (s.exec t spurious)

end

/-- Before anything is constructed. -/
def initial (Tid H Cell : Type) : State Tid H Cell where
  handles _ := .absent
  cells _ := .absent
  heap _ := none
  pcs _ := none
  flags _ := none
  crashed := false

end JowiAsio.SharedPtr
