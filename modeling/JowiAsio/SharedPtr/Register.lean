import JowiAsio.SharedPtr.Safety

/-!
`std::atomic<SharedPtr>` is an atomic register of pointers.

`Registers` is the specification: a cell holds a pointer, without a tag,
and a call on a cell has one step of its own, `lin`, at which it reads and
writes the cell at once (`Call.lin`). The machine of `shared_ptr.cc`
refines it. `Pc.status` reads from what a call still has to do whether it
has taken effect and, if so, with which result; `lift` says which steps
are the effects. Counts do not occur here: the refinement uses that a
deferred thread knows the pointer of its cell, and nothing else of them.
-/

namespace JowiAsio.SharedPtr

open Lib TaggedPtr

/-! ### The specification -/

/-- A call on a cell, with the pointers that its parameters hold. -/
inductive Call (H Cell : Type)
  | load (c : Cell) (h : H)
  | exchange (c : Cell) (h : H) (desired : Addr)
  | store (c : Cell) (desired : Addr)
  | compareExchange (c : Cell) (e : H) (expected desired : Addr)
  | destroy (c : Cell)

section

variable {H Cell : Type}

def Call.cell : Call H Cell → Cell
  | .load c _ | .exchange c _ _ | .store c _ | .compareExchange c _ _ _ | .destroy c => c

/-- The effect of a call on a cell that holds `p`: what the cell holds
after it (nothing when it is destroyed), and the result. -/
def Call.lin : Call H Cell → Addr → Option Addr × Result H
  | .load _ h, p => (some p, ⟨[(h, p)], none⟩)
  | .exchange _ h desired, p => (some desired, ⟨[(h, p)], none⟩)
  | .store _ desired, _ => (some desired, ⟨[], none⟩)
  | .compareExchange _ e expected desired, p =>
      if p = expected then (some desired, ⟨[(e, expected)], some true⟩)
      else (some p, ⟨[(e, p)], some false⟩)
  | .destroy _, _ => (none, ⟨[], none⟩)

end

inductive Status (H Cell : Type)
  | idle
  | called (call : Call H Cell)
  | done (r : Result H)

inductive Reg
  | absent
  | live (p : Addr)
  | dying (p : Addr)

def Reg.pointer : Reg → Option Addr
  | .absent => none
  | .live p | .dying p => some p

def Reg.set : Reg → Option Addr → Reg
  | .live _, some p => .live p
  | .dying _, some p => .dying p
  | _, _ => .absent

structure Registers (Tid H Cell : Type) where
  handles : H → Handle
  regs : Cell → Reg
  status : Tid → Status H Cell
  flags : Tid → Option Bool

/-- A call begins, takes effect or returns. -/
inductive RegAct (H Cell : Type)
  | begin (op : Op H Cell)
  | lin
  | ret

section

variable {Tid H Cell : Type} [DecidableEq Tid] [DecidableEq H] [DecidableEq Cell]

namespace Registers

def setHandle (s : Registers Tid H Cell) (h : H) (x : Handle) : Registers Tid H Cell :=
  { s with handles := Function.update s.handles h x }

def setReg (s : Registers Tid H Cell) (c : Cell) (x : Reg) : Registers Tid H Cell :=
  { s with regs := Function.update s.regs c x }

def goto (s : Registers Tid H Cell) (t : Tid) (x : Status H Cell) : Registers Tid H Cell :=
  { s with status := Function.update s.status t x }

/-- A call that works on handles only has its result when it begins. -/
def begin (s : Registers Tid H Cell) (t : Tid) : Op H Cell → Option (Registers Tid H Cell)
  | .construct h p =>
      match s.handles h with
      | .absent => some ((s.setHandle h .busy).goto t (.done ⟨[(h, p)], none⟩))
      | _ => none
  | .copy h o =>
      match s.handles h, s.handles o with
      | .absent, .val p => some (((s.setHandle h .busy).setHandle o .busy).goto t
          (.done ⟨[(o, p), (h, p)], none⟩))
      | _, _ => none
  | .move h o =>
      match s.handles h, s.handles o with
      | .absent, .val p => some (((s.setHandle h .busy).setHandle o .busy).goto t
          (.done ⟨[(o, 0), (h, p)], none⟩))
      | _, _ => none
  | .copyAssign h o =>
      match s.handles h, s.handles o with
      | .val _, .val q => some (((s.setHandle h .busy).setHandle o .busy).goto t
          (.done ⟨if h = o then [(h, q)] else [(o, q), (h, q)], none⟩))
      | _, _ => none
  | .moveAssign h o =>
      match s.handles h, s.handles o with
      | .val _, .val q => some (((s.setHandle h .busy).setHandle o .busy).goto t
          (.done ⟨if h = o then [(h, q)] else [(o, 0), (h, q)], none⟩))
      | _, _ => none
  | .reset h =>
      match s.handles h with
      | .val _ => some ((s.setHandle h .busy).goto t (.done ⟨[(h, 0)], none⟩))
      | _ => none
  | .destroy h =>
      match s.handles h with
      | .val _ => some ((s.setHandle h .absent).goto t (.done ⟨[], none⟩))
      | _ => none
  | .atomic c d =>
      match s.regs c, s.handles d with
      | .absent, .val p => some (((s.setHandle d .absent).setReg c (.live p)).goto t
          (.done ⟨[], none⟩))
      | _, _ => none
  | .load c h =>
      match s.regs c, s.handles h with
      | .live _, .absent => some ((s.setHandle h .busy).goto t (.called (.load c h)))
      | _, _ => none
  | .exchange c d h =>
      match s.regs c, s.handles d, s.handles h with
      | .live _, .val p, .absent => some (((s.setHandle d .absent).setHandle h .busy).goto t
          (.called (.exchange c h p)))
      | _, _, _ => none
  | .store c d =>
      match s.regs c, s.handles d with
      | .live _, .val p => some ((s.setHandle d .absent).goto t (.called (.store c p)))
      | _, _ => none
  | .compareExchange c e d | .compareExchangeWeak c e d | .compareExchangeStrong c e d =>
      match s.regs c, s.handles e, s.handles d with
      | .live _, .val pe, .val pd =>
          if e = d then none
          else some (((s.setHandle e .busy).setHandle d .absent).goto t
            (.called (.compareExchange c e pe pd)))
      | _, _, _ => none
  | .destroyAtomic c =>
      match s.regs c with
      | .live p => some ((s.setReg c (.dying p)).goto t (.called (.destroy c)))
      | _ => none

def step (s : Registers Tid H Cell) : Tid × RegAct H Cell → Option (Registers Tid H Cell)
  | (t, .begin op) =>
      match s.status t with
      | .idle => s.begin t op
      | _ => none
  | (t, .lin) =>
      match s.status t with
      | .called call => (s.regs call.cell).pointer.map fun p =>
          (s.setReg call.cell ((s.regs call.cell).set (call.lin p).1)).goto t
            (.done (call.lin p).2)
      | _ => none
  | (t, .ret) =>
      match s.status t with
      | .done r => some
          { s with
            handles := r.writes.foldl (fun hs w => Function.update hs w.1 (.val w.2)) s.handles
            status := Function.update s.status t .idle
            flags := Function.update s.flags t r.flag }
      | _ => none

end Registers

end

/-! ### The abstraction -/

section

variable {Tid H Cell : Type}

/-- Whether a call has taken effect, and with which result. -/
def Pc.status : Pc H Cell → Status H Cell
  | .ret r => .done r
  | .incr _ k | .drop _ _ _ k | .casDown _ _ _ k => k.status
  | .load c _ _ h => .called (.load c h)
  | .loadDown _ _ des h => .done ⟨[(h, addr des)], none⟩
  | .exchange c _ des h => .called (.exchange c h (addr des))
  | .store c _ des _ closing => .called (if closing then .destroy c else .store c (addr des))
  | .cas c _ _ e pe pd _ => .called (.compareExchange c e pe pd)

def CellState.reg : CellState → Reg
  | .absent => .absent
  | .live w => .live (addr w)
  | .dying w => .dying (addr w)

def State.registers (s : State Tid H Cell) : Registers Tid H Cell where
  handles := s.handles
  regs c := (s.cells c).reg
  status t := (s.pcs t).elim .idle Pc.status
  flags := s.flags

/-- The call has not taken effect yet. -/
def Status.isCalled : Status H Cell → Bool
  | .called _ => true
  | _ => false

/-- The step that the specification makes. -/
def lift (s : State Tid H Cell) : Tid × Act H Cell → List (Tid × RegAct H Cell)
  | (t, .begin op) => [(t, .begin op)]
  | (t, .go spurious) =>
      match s.pcs t with
      | none => []
      | some (.ret _) => [(t, .ret)]
      | some pc =>
          match pc.attempt with
          | none => []
          | some a =>
              if pc.status.isCalled ∧ (s.cells a.cell).word = some a.cur ∧ spurious = false then
                [(t, .lin)]
              else []

end

end JowiAsio.SharedPtr
