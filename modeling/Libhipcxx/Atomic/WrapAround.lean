import Libhipcxx.Atomic.Operation

/-!
# Wrap-around operations on the proxy

Truncation to the width of `T` commutes with addition, subtraction and the
bitwise operations, and forgets how an operand was extended.  So the garbage
that arithmetic leaves in the high bits of the proxy is invisible to every
operation that wraps around, over runs of any length.
-/

namespace Libhipcxx.Atomic

open SmallType Replies

variable {T : SmallType} {word : Word} {x : BitVec T.bits}

/-- A binary word operation that commutes with truncation acts on the value
that the proxy stands for. -/
theorem represents_binary {f : Word → Word → Word}
    {g : BitVec T.bits → BitVec T.bits → BitVec T.bits}
    (hfg : ∀ a b : Word,
      (f a b).setWidth T.bits = g (a.setWidth T.bits) (b.setWidth T.bits))
    (hT : T.HasFetch) (h : T.Represents word x) (v : BitVec T.bits) :
    T.Represents (f word (T.cxxSmallTo32 v)) (g x v) := by
  apply represents_of_hasFetch hT
  rw [hfg, h.setWidth_eq hT, setWidth_cxxSmallTo32]

theorem setWidth_sub_of_le {w n : ℕ} (h : n ≤ w) (a b : BitVec w) :
    (a - b).setWidth n = a.setWidth n - b.setWidth n := by
  rw [BitVec.sub_eq_add_neg, BitVec.setWidth_add _ _ h,
    BitVec.setWidth_neg_of_le h, ← BitVec.sub_eq_add_neg]

theorem bits_le_word (T : SmallType) : T.bits ≤ 32 :=
  Nat.le_trans T.bits_le (by decide)

/-- One wrap-around operation gives the reply of the plain cell and keeps the
proxy standing for its value. -/
theorem exec_wrapsAround (target : Target) (fuel : ℕ) {op : Op T}
    (hop : op.WrapsAround) (h : T.Represents word x) :
    ∃ word', op.exec target fuel word = some ((op.cell x).1, word') ∧
      T.Represents word' (op.cell x).2 := by
  have hload : T.cxxSmallFrom32 word = x := h.value
  cases op with
  | store val => exact ⟨_, rfl, represents_cxxSmallTo32 val⟩
  | load =>
      refine ⟨word, ?_, h⟩
      simp only [Op.exec, Op.cell, Small.cxxAtomicLoad, hload]
  | exchange val =>
      refine ⟨T.cxxSmallTo32 val.1, ?_, represents_cxxSmallTo32 val⟩
      simp only [Op.exec, Op.cell, Small.cxxAtomicExchange, Small.viaProxy,
        Heterogeneous.cxxAtomicExchange, Prod.map, hload, id]
  | fetchAdd hT delta =>
      refine ⟨word + T.cxxSmallTo32 delta.1, ?_,
        represents_binary (fun a b => BitVec.setWidth_add a b (bits_le_word T))
          hT h delta.1⟩
      simp only [Op.exec, Op.cell, Small.cxxAtomicFetchAdd, Small.viaProxy,
        Heterogeneous.cxxAtomicFetchAdd, Prod.map, hload, id]
  | fetchSub hT delta =>
      refine ⟨word - T.cxxSmallTo32 delta.1, ?_,
        represents_binary (setWidth_sub_of_le (bits_le_word T)) hT h delta.1⟩
      simp only [Op.exec, Op.cell, Small.cxxAtomicFetchSub, Small.viaProxy,
        Heterogeneous.cxxAtomicFetchSub_eq, Prod.map, hload, id]
  | fetchAnd hT pattern =>
      refine ⟨word &&& T.cxxSmallTo32 pattern.1, ?_,
        represents_binary (fun _ _ => BitVec.setWidth_and) hT h pattern.1⟩
      simp only [Op.exec, Op.cell, Small.cxxAtomicFetchAnd, Small.viaProxy,
        Heterogeneous.cxxAtomicFetchAnd, Prod.map, hload, id]
  | fetchOr hT pattern =>
      refine ⟨word ||| T.cxxSmallTo32 pattern.1, ?_,
        represents_binary (fun _ _ => BitVec.setWidth_or) hT h pattern.1⟩
      simp only [Op.exec, Op.cell, Small.cxxAtomicFetchOr, Small.viaProxy,
        Heterogeneous.cxxAtomicFetchOr, Prod.map, hload, id]
  | fetchXor hT pattern =>
      refine ⟨word ^^^ T.cxxSmallTo32 pattern.1, ?_,
        represents_binary (fun _ _ => BitVec.setWidth_xor) hT h pattern.1⟩
      simp only [Op.exec, Op.cell, Small.cxxAtomicFetchXor, Small.viaProxy,
        Heterogeneous.cxxAtomicFetchXor, Prod.map, hload, id]
  | fetchMax _ _ => exact hop.elim
  | fetchMin _ _ => exact hop.elim
  | compareExchangeWeak _ _ => exact hop.elim
  | compareExchangeStrong _ _ => exact hop.elim

/-- Every finite sequence of wrap-around operations on the proxy gives the
replies of a plain cell of type `T`, and the value loaded at the end is the
value of that cell. -/
theorem wrapAround_run_eq_cell (T : SmallType) (target : Target) (fuel : ℕ)
    (val : T.Value) (ops : List (Op T)) (hops : ∀ op ∈ ops, op.WrapsAround) :
    ∃ replies word final,
      runAll (Op.exec target fuel) ops (Small.cxxAtomicInit T val.1) =
        some (replies, word) ∧
      runAll (fun op x => some (op.cell x)) ops val.1 =
        some (replies, final) ∧
      Small.cxxAtomicLoad T word = final := by
  obtain ⟨replies, word, final, hword, hcell, hrel⟩ :=
    runAll_simulates (R := T.Represents) (C := fun op _ => op.WrapsAround)
      (fun _ _ _ hrel hop => exec_wrapsAround target fuel hop hrel)
      (represents_cxxSmallTo32 val) (allOk_of_forall hops _)
  exact ⟨replies, word, final, hword, hcell, hrel.value⟩

theorem wrapAround_run_eq_cell_uint8 :
    ∃ replies word final,
      runAll (Op.exec .device 0)
          [Op.fetchAdd (T := uint8) (by decide) ⟨1, by decide⟩, Op.load]
          (Small.cxxAtomicInit uint8 255) =
        some (replies, word) ∧
      runAll (fun op x => some (op.cell x))
          [Op.fetchAdd (T := uint8) (by decide) ⟨1, by decide⟩, Op.load]
          (255 : BitVec uint8.bits) =
        some (replies, final) ∧
      Small.cxxAtomicLoad uint8 word = final :=
  wrapAround_run_eq_cell uint8 .device 0 ⟨255, by decide⟩ _ (by decide)

end Libhipcxx.Atomic
