import JowiAsio.Lib.Atomic
import JowiAsio.Lib.Bytes
import JowiAsio.Lockfree.TaggedPtr
import Mathlib.Data.List.FinRange

/-!
`BitTuple` (`bit_tuple.cc`), and the atomic cell that holds one as a word
of 64 bits.

A tuple is an object of eight bytes, some of which belong to its
components. The constructor writes these and no others, and a copy copies
them: what the padding bytes hold afterwards is a parameter. `to_raw`
takes all eight bytes, so the cell compares the padding as well.

Where the components lie in the object is left open, since `std::tuple`
may put them in any order.
-/

namespace JowiAsio.BitTuple

open Lib

/-- A component type, with the value that its bytes represent, if they
represent one. -/
structure Component where
  Val : Type
  size : ℕ
  read : (Fin size → Byte) → Option Val
  inhabited : ∃ b v, read b = some v

/-- Where `std::tuple<Ts...>` has its components. -/
structure Layout where
  arity : ℕ
  comp : Fin arity → Component
  offset : Fin arity → ℕ
  fits : ∀ i, offset i + (comp i).size ≤ 8
  disjoint : ∀ i j k, offset i ≤ k → k < offset i + (comp i).size → offset j ≤ k →
    k < offset j + (comp j).size → i = j

/-- The packet, byte by byte. -/
abbrev Object := Fin 8 → Byte

def toRaw (o : Object) : Word := ofBytes o

namespace Layout

variable (L : Layout)

abbrev Values := ∀ i, (L.comp i).Val

abbrev Bytes (i : Fin L.arity) := Fin (L.comp i).size → Byte

/-- A byte that belongs to a component. -/
abbrev Within (i : Fin L.arity) (k : Fin 8) : Prop :=
  L.offset i ≤ k.val ∧ k.val < L.offset i + (L.comp i).size

def Padding (k : Fin 8) : Prop := ∀ i, ¬L.Within i k

/-! ### The operations -/

def bytesOf (i : Fin L.arity) (o : Object) : L.Bytes i := fun j =>
  o ⟨L.offset i + j.val, Nat.lt_of_lt_of_le (Nat.add_lt_add_left j.isLt _) (L.fits i)⟩

/-- `get`; `none` when the bytes are no value of the component. -/
def get (i : Fin L.arity) (o : Object) : Option (L.comp i).Val := (L.comp i).read (L.bytesOf i o)

def put (i : Fin L.arity) (b : L.Bytes i) (o : Object) : Object := fun k =>
  if h : L.Within i k then b ⟨k.val - L.offset i, by omega⟩ else o k

/-- The constructor, in a storage that held `pad`; the components are
given by their bytes. -/
def construct (b : ∀ i, L.Bytes i) (pad : Object) : Object :=
  (List.finRange L.arity).foldl (fun o i => L.put i (b i) o) pad

def copy (pad o : Object) : Object := L.construct (fun i => L.bytesOf i o) pad

def fromBits (pad : Object) (v : Word) : Object := L.copy pad fun k => byteAt v k

/-- `compare_exchange_weak`: whether it succeeded, the cell and `e`
afterwards. -/
def compareExchangeWeak (pad : Object) (spurious : Bool) (cell : Word) (e d : Object) :
    Bool × Word × Object :=
  let r := casWeak spurious cell (toRaw e) (toRaw d)
  (r.ok, r.cell, if r.ok then e else L.fromBits pad r.expected)

def compareExchangeStrong (pad : Object) (cell : Word) (e d : Object) : Bool × Word × Object :=
  L.compareExchangeWeak pad false cell e d

/-! ### What the cell has to do -/

/-- An object that was built with these components: by the constructor, as
a copy, or from the word of another one. -/
inductive Built : Object → L.Values → Prop
  | construct (b : ∀ i, L.Bytes i) (v : L.Values) (pad : Object)
      (h : ∀ i, (L.comp i).read (b i) = some (v i)) : Built (L.construct b pad) v
  | copy (o : Object) (v : L.Values) (pad : Object) (h : Built o v) : Built (L.copy pad o) v
  | fromBits (o : Object) (v : L.Values) (pad : Object) (h : Built o v) :
      Built (L.fromBits pad (toRaw o)) v

structure ComparesComponents : Prop where
  toRaw_eq_iff : ∀ a b v w, L.Built a v → L.Built b w → (toRaw a = toRaw b ↔ v = w)
  get_fromBits : ∀ pad a v, L.Built a v → ∀ i, L.get i (L.fromBits pad (toRaw a)) = some (v i)
  succeeds_iff : ∀ pad stored e d v w, L.Built stored v → L.Built e w →
    ((L.compareExchangeStrong pad (toRaw stored) e d).1 = true ↔ v = w)
  succeeded : ∀ pad stored e d v w, L.Built stored v → L.Built e w →
    (L.compareExchangeStrong pad (toRaw stored) e d).1 = true →
    (L.compareExchangeStrong pad (toRaw stored) e d).2 = (toRaw d, e)
  failed : ∀ pad stored e d v w, L.Built stored v → L.Built e w →
    (L.compareExchangeStrong pad (toRaw stored) e d).1 = false →
    (L.compareExchangeStrong pad (toRaw stored) e d).2.1 = toRaw stored ∧
      ∀ i, L.get i (L.compareExchangeStrong pad (toRaw stored) e d).2.2 = some (v i)

/-- Tuples with equal components have equal bytes: there is no padding,
and no component has a value that several byte patterns represent. -/
structure UniqueRepresentation : Prop where
  noPadding : ∀ k, ¬L.Padding k
  unique : ∀ i b b' v, (L.comp i).read b = some v → (L.comp i).read b' = some v → b = b'

/-! ### Bytes of an object -/

variable {L} {o : Object}

@[simp] theorem bytesOf_put_self (i : Fin L.arity) (b : L.Bytes i) :
    L.bytesOf i (L.put i b o) = b := by
  ext1 j
  have hwithin : L.offset i ≤ L.offset i + j.val ∧
      L.offset i + j.val < L.offset i + (L.comp i).size :=
    ⟨Nat.le_add_right _ _, Nat.add_lt_add_left j.isLt _⟩
  rw [bytesOf, put, dif_pos hwithin]
  exact congrArg b (Fin.ext (Nat.add_sub_cancel_left ..))

theorem bytesOf_put_of_ne {i j : Fin L.arity} (h : i ≠ j) (b : L.Bytes j) :
    L.bytesOf i (L.put j b o) = L.bytesOf i o := by
  ext1 k
  rw [bytesOf, put, dif_neg]
  · rfl
  · rintro ⟨hle, hlt⟩
    exact h (L.disjoint i j _ (Nat.le_add_right _ _) (Nat.add_lt_add_left k.isLt _) hle hlt)

theorem bytesOf_foldl (b : ∀ i, L.Bytes i) (i : Fin L.arity) (l : List (Fin L.arity)) :
    L.bytesOf i (l.foldl (fun o i => L.put i (b i) o) o) =
      if i ∈ l then b i else L.bytesOf i o := by
  induction l generalizing o with
  | nil => rfl
  | cons j l ih =>
      rw [List.foldl_cons, ih]
      by_cases hl : i ∈ l
      · rw [if_pos hl, if_pos (List.mem_cons_of_mem _ hl)]
      · rw [if_neg hl]
        by_cases hj : i = j
        · subst hj
          rw [bytesOf_put_self, if_pos List.mem_cons_self]
        · rw [bytesOf_put_of_ne hj, if_neg (by simp [hj, hl])]

@[simp] theorem bytesOf_construct (b : ∀ i, L.Bytes i) (pad : Object) (i : Fin L.arity) :
    L.bytesOf i (L.construct b pad) = b i := by
  rw [construct, bytesOf_foldl, if_pos (List.mem_finRange i)]

/-- Nothing writes the padding. -/
theorem construct_padding (b : ∀ i, L.Bytes i) (pad : Object) {k : Fin 8} (h : L.Padding k) :
    L.construct b pad k = pad k := by
  rw [construct]
  generalize List.finRange L.arity = l
  induction l generalizing pad with
  | nil => rfl
  | cons i l ih =>
      rw [List.foldl_cons, ih, put, dif_neg (h i)]

theorem construct_bytesOf (o : Object) : L.construct (fun i => L.bytesOf i o) o = o := by
  have hput : ∀ i, L.put i (L.bytesOf i o) o = o := by
    intro i
    ext1 k
    rw [put]
    split
    next h => exact congrArg o (Fin.ext (Nat.add_sub_cancel' h.1))
    next => rfl
  rw [construct]
  generalize List.finRange L.arity = l
  induction l with
  | nil => rfl
  | cons i l ih => rw [List.foldl_cons, hput, ih]

theorem ofRaw_toRaw (o : Object) : (fun k : Fin 8 => byteAt (toRaw o) k) = o := by
  ext1 k
  exact byteAt_ofBytes o k

@[simp] theorem get_copy (pad o : Object) (i : Fin L.arity) :
    L.get i (L.copy pad o) = L.get i o := by
  rw [get, copy, bytesOf_construct, get]

@[simp] theorem get_fromBits_toRaw (pad o : Object) (i : Fin L.arity) :
    L.get i (L.fromBits pad (toRaw o)) = L.get i o := by
  rw [fromBits, ofRaw_toRaw, get_copy]

/-- What was built can be read back, and every object of readable
components can be built. -/
theorem built_iff {v : L.Values} : L.Built o v ↔ ∀ i, L.get i o = some (v i) := by
  constructor
  · intro h
    induction h with
    | construct b v pad h =>
        intro i
        rw [get, bytesOf_construct, h i]
    | copy o v pad _ ih =>
        intro i
        rw [get_copy, ih i]
    | fromBits o v pad _ ih =>
        intro i
        rw [get_fromBits_toRaw, ih i]
  · intro h
    rw [← construct_bytesOf (L := L) o]
    exact .construct _ v o h

/-! ### When the cell compares components -/

theorem eq_of_bytesOf (hpad : ∀ k, ¬L.Padding k) {o o' : Object}
    (h : ∀ i, L.bytesOf i o = L.bytesOf i o') : o = o' := by
  ext1 k
  obtain ⟨i, hle, hlt⟩ : ∃ i, L.Within i k := by
    by_contra hnone
    exact hpad k fun i hi => hnone ⟨i, hi⟩
  have hk := congrFun (h i) ⟨k.val - L.offset i, by omega⟩
  have heq : (⟨L.offset i + (k.val - L.offset i), by omega⟩ : Fin 8) = k :=
    Fin.ext (Nat.add_sub_cancel' hle)
  simpa only [bytesOf, heq] using hk

theorem UniqueRepresentation.toRaw_eq_iff (h : L.UniqueRepresentation) {a b : Object}
    {v w : L.Values} (ha : L.Built a v) (hb : L.Built b w) : toRaw a = toRaw b ↔ v = w := by
  rw [built_iff] at ha hb
  constructor
  · intro he
    obtain rfl := ofBytes_inj.1 he
    funext i
    exact Option.some.inj ((ha i).symm.trans (hb i))
  · rintro rfl
    exact congrArg toRaw (eq_of_bytesOf h.noPadding fun i => h.unique i _ _ _ (ha i) (hb i))

/-- The two outcomes of a compare-exchange, on words. -/
theorem compareExchangeStrong_cases (pad : Object) (cell : Word) (e d : Object) :
    (cell = toRaw e ∧ L.compareExchangeStrong pad cell e d = (true, toRaw d, e)) ∨
      (cell ≠ toRaw e ∧
        L.compareExchangeStrong pad cell e d = (false, cell, L.fromBits pad cell)) := by
  rw [compareExchangeStrong, compareExchangeWeak]
  rcases casWeak_cases false cell (toRaw e) (toRaw d) with ⟨hcell, -, hcas⟩ | ⟨hne, hcas⟩
  · exact .inl ⟨hcell, by rw [hcas]; rfl⟩
  · exact .inr ⟨fun hcell => Bool.false_ne_true (hne hcell), by rw [hcas]; rfl⟩

theorem UniqueRepresentation.comparesComponents (h : L.UniqueRepresentation) :
    L.ComparesComponents := by
  refine ⟨fun a b v w ha hb => h.toRaw_eq_iff ha hb, ?_, ?_, ?_, ?_⟩
  · intro pad a v ha i
    rw [get_fromBits_toRaw]
    exact built_iff.1 ha i
  · intro pad stored e d v w hv hw
    rw [← h.toRaw_eq_iff hv hw]
    rcases compareExchangeStrong_cases (L := L) pad (toRaw stored) e d with ⟨heq, hr⟩ | ⟨hne, hr⟩
    · rw [hr]
      exact iff_of_true rfl heq
    · rw [hr]
      exact iff_of_false Bool.false_ne_true hne
  · intro pad stored e d v w _ _ hok
    rcases compareExchangeStrong_cases (L := L) pad (toRaw stored) e d with ⟨-, hr⟩ | ⟨-, hr⟩
    · rw [hr]
    · rw [hr] at hok
      exact absurd hok Bool.false_ne_true
  · intro pad stored e d v w hv _ hok
    rcases compareExchangeStrong_cases (L := L) pad (toRaw stored) e d with ⟨-, hr⟩ | ⟨-, hr⟩
    · rw [hr] at hok
      exact absurd hok.symm Bool.false_ne_true
    · rw [hr]
      refine ⟨rfl, fun i => ?_⟩
      rw [get_fromBits_toRaw]
      exact built_iff.1 hv i

/-- Two objects with the same components have the same bytes. -/
theorem ComparesComponents.eq (h : L.ComparesComponents) {a b : Object} {v : L.Values}
    (ha : L.Built a v) (hb : L.Built b v) : a = b :=
  ofBytes_inj.1 ((h.toRaw_eq_iff a b v v ha hb).2 rfl)

theorem ComparesComponents.uniqueRepresentation (h : L.ComparesComponents) :
    L.UniqueRepresentation := by
  choose b v hread using fun i => (L.comp i).inhabited
  constructor
  · -- two objects that differ in a padding byte only
    intro k hk
    have heq := h.eq (.construct b v (fun _ => 0) hread) (.construct b v (fun _ => 1) hread)
    have hbyte := congrFun heq k
    rw [construct_padding b _ hk, construct_padding b _ hk] at hbyte
    exact absurd hbyte (by decide)
  · -- two objects that differ in how one component is represented
    intro i c c' x hc hc'
    have hread' : ∀ {c : L.Bytes i}, (L.comp i).read c = some x →
        ∀ j, (L.comp j).read (Function.update b i c j) = some (Function.update v i x j) := by
      intro c hc j
      by_cases hj : j = i
      · subst hj
        rw [Function.update_self, Function.update_self, hc]
      · rw [Function.update_of_ne hj, Function.update_of_ne hj, hread]
    have heq := h.eq (.construct _ _ (fun _ => 0) (hread' hc))
      (.construct _ _ (fun _ => 0) (hread' hc'))
    have hbytes := congrArg (L.bytesOf i) heq
    rw [bytesOf_construct, bytesOf_construct, Function.update_self, Function.update_self] at hbytes
    exact hbytes

/-- The cell compares components if and only if tuples with equal
components have equal bytes. -/
theorem comparesComponents_iff (L : Layout) : L.ComparesComponents ↔ L.UniqueRepresentation :=
  ⟨fun h => h.uniqueRepresentation, fun h => h.comparesComponents⟩

end Layout

/-! ### The tuples of the library -/

/-- `bool`: zero or one. -/
def boolComponent : Component where
  Val := Bool
  size := 1
  read b :=
    if b (Fin.last 0) = 0 then some false
    else if b (Fin.last 0) = 1 then some true
    else none
  inhabited := ⟨fun _ => 0, false, rfl⟩

/-- `uint32_t`, given by its bytes. -/
def uint32Component : Component where
  Val := Fin 4 → Byte
  size := 4
  read := some
  inhabited := ⟨fun _ => 0, _, rfl⟩

/-- Two components of one type next to each other. -/
def pair (c : Component) (h : c.size ≤ 4) : Layout where
  arity := 2
  comp _ := c
  offset i := i.val * c.size
  fits i := by
    have := Nat.mul_le_mul_right c.size (Nat.le_of_lt_succ i.isLt)
    omega
  disjoint i j k hi hi' hj hj' := by
    have hlt : ∀ {a b : ℕ}, a * c.size ≤ k → k < b * c.size + c.size → a < b + 1 := by
      intro a b ha hb
      by_contra hba
      have := Nat.mul_le_mul_right c.size (Nat.le_of_not_lt hba)
      rw [Nat.succ_mul] at this
      omega
    have := hlt hi hj'
    have := hlt hj hi'
    exact Fin.ext (by omega)

/-- `BitTuple<uint32_t, uint32_t>`, the indices of a ring. -/
def uint32Pair : Layout := pair uint32Component (by decide)

/-- `BitTuple<bool, bool>`, the flags of a worker. -/
def boolPair : Layout := pair boolComponent (by decide)

/-- The indices of a ring fill the eight bytes. -/
example : uint32Pair.ComparesComponents := by
  apply Layout.UniqueRepresentation.comparesComponents
  refine ⟨?_, ?_⟩
  · show ∀ k : Fin 8, ¬∀ i : Fin 2, ¬(i.val * 4 ≤ k.val ∧ k.val < i.val * 4 + 4)
    decide
  · intro i b b' v hb hb'
    exact Option.some.inj (hb.trans hb'.symm)

/-- A worker whose flags are both false, with `pad` in the other bytes. -/
def noFlags (pad : Byte) : Object := boolPair.construct (fun _ _ => 0) fun _ => pad

/-- Expecting these flags fails when the padding of what is expected holds
something else. -/
theorem not_comparesComponents_bool :
    (boolPair.compareExchangeStrong (noFlags 0) (toRaw (noFlags 0)) (noFlags 1) (noFlags 0)).1 =
        false ∧
      ¬∀ L : Layout, L.ComparesComponents := by
  have hfails : (boolPair.compareExchangeStrong (noFlags 0) (toRaw (noFlags 0)) (noFlags 1)
      (noFlags 0)).1 = false := by
    decide
  refine ⟨hfails, fun h => ?_⟩
  have hbuilt : ∀ pad, boolPair.Built (noFlags pad) fun _ => false :=
    fun pad => .construct _ _ _ fun i => rfl
  have hok := ((h boolPair).succeeds_iff (noFlags 0) _ _ (noFlags 0) _ _ (hbuilt 0)
    (hbuilt 1)).2 rfl
  rw [hfails] at hok
  exact Bool.false_ne_true hok

end JowiAsio.BitTuple
