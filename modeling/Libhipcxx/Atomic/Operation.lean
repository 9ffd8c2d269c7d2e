import Libhipcxx.Atomic.Small
import Libhipcxx.Support.Replies

/-!
# Operation sequences on a small atomic and on a plain cell

`Op.exec` runs one operation on the proxy as the source does.  `Op.cell` is
its meaning on a plain object of type `T`: arithmetic is modulo `2 ^ w`, and
fetch-max, fetch-min and compare-exchange compare values of `T`.
-/

namespace Libhipcxx.Atomic

open SmallType Replies

/-- The operations of a small atomic, with operands of type `T`. -/
inductive Op (T : SmallType) where
  | store (val : T.Value)
  | load
  | exchange (val : T.Value)
  | fetchAdd (hT : T.HasFetch) (delta : T.Value)
  | fetchSub (hT : T.HasFetch) (delta : T.Value)
  | fetchAnd (hT : T.HasFetch) (pattern : T.Value)
  | fetchOr (hT : T.HasFetch) (pattern : T.Value)
  | fetchXor (hT : T.HasFetch) (pattern : T.Value)
  | fetchMax (hT : T.HasFetch) (val : T.Value)
  | fetchMin (hT : T.HasFetch) (val : T.Value)
  | compareExchangeWeak (expected desired : T.Value)
  | compareExchangeStrong (expected desired : T.Value)

/-- What an operation hands back.  A compare-exchange also writes
`*__expected`. -/
inductive Reply (T : SmallType) where
  | done
  | value (v : BitVec T.bits)
  | exchanged (ok : Bool) (expected : BitVec T.bits)
  deriving DecidableEq

namespace Op

variable {T : SmallType}

/-- One operation on the proxy.  `none` means that the fuel ran out in a loop
of the source. -/
def exec (target : Target) (fuel : ℕ) :
    Op T → Word → Option (Reply T × Word)
  | .store val, word => some (.done, Small.cxxAtomicStore T val.1 word)
  | .load, word => some (.value (Small.cxxAtomicLoad T word), word)
  | .exchange val, word =>
      some ((Small.cxxAtomicExchange T val.1 word).map .value id)
  | .fetchAdd _ delta, word =>
      some ((Small.cxxAtomicFetchAdd T delta.1 word).map .value id)
  | .fetchSub _ delta, word =>
      some ((Small.cxxAtomicFetchSub T target delta.1 word).map .value id)
  | .fetchAnd _ pattern, word =>
      some ((Small.cxxAtomicFetchAnd T pattern.1 word).map .value id)
  | .fetchOr _ pattern, word =>
      some ((Small.cxxAtomicFetchOr T pattern.1 word).map .value id)
  | .fetchXor _ pattern, word =>
      some ((Small.cxxAtomicFetchXor T pattern.1 word).map .value id)
  | .fetchMax _ val, word =>
      (Small.cxxAtomicFetchMax T target fuel val.1 word).map
        (Prod.map .value id)
  | .fetchMin _ val, word =>
      (Small.cxxAtomicFetchMin T target fuel val.1 word).map
        (Prod.map .value id)
  | .compareExchangeWeak expected desired, word =>
      let (ok, expected', word') :=
        Small.cxxAtomicCompareExchangeWeak T expected.1 desired.1 word
      some (.exchanged ok expected', word')
  | .compareExchangeStrong expected desired, word =>
      (Small.cxxAtomicCompareExchangeStrong T fuel expected.1 desired.1
        word).map fun (ok, expected', word') => (.exchanged ok expected', word')

/-- `T`'s own order. -/
def valueLt (T : SmallType) (x y : BitVec T.bits) : Bool :=
  if T.isSigned then x.slt y else x.ult y

/-- Compare-exchange on a plain object. -/
def cellCompareExchange (expected desired x : BitVec T.bits) :
    Reply T × BitVec T.bits :=
  if x = expected then (.exchanged true expected, desired)
  else (.exchanged false x, x)

/-- The meaning of an operation on a plain object of type `T`. -/
def cell : Op T → BitVec T.bits → Reply T × BitVec T.bits
  | .store val, _ => (.done, val.1)
  | .load, x => (.value x, x)
  | .exchange val, x => (.value x, val.1)
  | .fetchAdd _ delta, x => (.value x, x + delta.1)
  | .fetchSub _ delta, x => (.value x, x - delta.1)
  | .fetchAnd _ pattern, x => (.value x, x &&& pattern.1)
  | .fetchOr _ pattern, x => (.value x, x ||| pattern.1)
  | .fetchXor _ pattern, x => (.value x, x ^^^ pattern.1)
  | .fetchMax _ val, x => (.value x, if valueLt T x val.1 then val.1 else x)
  | .fetchMin _ val, x => (.value x, if valueLt T val.1 x then val.1 else x)
  | .compareExchangeWeak expected desired, x =>
      cellCompareExchange expected.1 desired.1 x
  | .compareExchangeStrong expected desired, x =>
      cellCompareExchange expected.1 desired.1 x

/-- Store, load, exchange and the operations that wrap around. -/
def WrapsAround : Op T → Prop
  | .fetchMax _ _ | .fetchMin _ _ => False
  | .compareExchangeWeak _ _ | .compareExchangeStrong _ _ => False
  | _ => True

instance (op : Op T) : Decidable op.WrapsAround := by
  cases op <;> unfold WrapsAround <;> infer_instance

/-- Everything but compare-exchange. -/
def NoCompareExchange : Op T → Prop
  | .compareExchangeWeak _ _ | .compareExchangeStrong _ _ => False
  | _ => True

instance (op : Op T) : Decidable op.NoCompareExchange := by
  cases op <;> unfold NoCompareExchange <;> infer_instance

end Op

/-- The proxy states that some finite sequence of operations satisfying `P`
reaches from an initial value.  Every operation of the sequence returns. -/
def ReachableProxy (T : SmallType) (target : Target) (P : Op T → Prop)
    (word : Word) : Prop :=
  ∃ (val : T.Value) (ops : List (Op T)) (fuel : ℕ) (replies : List (Reply T)),
    (∀ op ∈ ops, P op) ∧
      runAll (Op.exec target fuel) ops (Small.cxxAtomicInit T val.1) =
        some (replies, word)

namespace SmallType

variable {T : SmallType}

/-- The proxy `word` stands for the value `x` of `T`.  A `bool` proxy is
never anything but `0` or `1`. -/
structure Represents (T : SmallType) (word : Word) (x : BitVec T.bits) :
    Prop where
  value : T.cxxSmallFrom32 word = x
  boolean : T.kind = .boolean → word.toNat ≤ 1

theorem represents_cxxSmallTo32 (v : T.Value) :
    T.Represents (T.cxxSmallTo32 v.1) v.1 where
  value := cxxSmallFrom32_cxxSmallTo32 v
  boolean := by
    intro hT
    rw [cxxSmallTo32_of_not_signed (by simp [hT]), BitVec.toNat_setWidth]
    exact Nat.le_trans (Nat.mod_le _ _) (v.2 hT)

theorem represents_of_hasFetch (hT : T.HasFetch) {word : Word}
    {x : BitVec T.bits} (h : word.setWidth T.bits = x) :
    T.Represents word x where
  value := by rw [cxxSmallFrom32_of_hasFetch hT, h]
  boolean := fun hbool => absurd hbool hT

theorem Represents.setWidth_eq (hT : T.HasFetch) {word : Word}
    {x : BitVec T.bits} (h : T.Represents word x) :
    word.setWidth T.bits = x := by
  rw [← cxxSmallFrom32_of_hasFetch hT, h.value]

end SmallType

end Libhipcxx.Atomic
