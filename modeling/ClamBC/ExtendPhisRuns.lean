import ClamBC.ExtendPhis

/-!
# Runs of a function with widened phis

At the end of a block its casts hold the values that the narrow phi lists for the
block, sign-extended. Constants are zero-extended instead; the low bits of the wide
phi are the narrow value in either case, and the cast back keeps the low bits.
-/

namespace ExtendPhis

open Ir IrExec PhiElimination SetVirusName

universe u
variable {V M : Type u} (S : Sem V M) (args : Nat → V) (bits : (w : Nat) → BitVec w → V)
variable (constBits : Const → Nat → Prop)

/-- What the language reference says about integers: constants, undefined values and results
of an integer type are integers of this width, and how trunc and sext compute. -/
structure IntegerSem : Prop where
  constant : ∀ w value, S.const (.int w value) = bits w (BitVec.ofNat w value)
  constants : ∀ c w, constBits c w → ∃ x, S.const c = bits w x
  undef : ∀ w, ∃ x, S.undef = bits w x
  result : ∀ w op mem r, S.op (.int w) op mem = some r → ∃ x, r.1 = bits w x
  trunc : ∀ m n (x : BitVec m) mem, n < m →
    S.op (.int n) (.cast .trunc (.int m) (bits m x)) mem = some (bits n (x.setWidth n), mem)
  sext : ∀ m n (x : BitVec m) mem, m < n →
    S.op (.int n) (.cast .sext (.int m) (bits m x)) mem = some (bits n (x.signExtend n), mem)

def TypedArgs (f : Function) : Prop := ∀ i w, f.args[i]? = some (.int w) → ∃ x, args i = bits w x

/-- Every integer instruction has left an integer of its width, or has not been executed. -/
def TypedRegs (f : Function) (regs : Nat → V) : Prop :=
  ∀ B ∈ f.blocks, ∀ i w, (i, Ty.int w) ∈ B.defs → ∃ x, regs i = bits w x

/-- No alloca is singled out: all of the memory is in `M`. -/
def noCells : Nat → Bool := fun _ => false

variable {S args bits constBits}

/-- The instruction hands its operand on. -/
def Lossless (i : Inst) : Prop :=
  ∃ op src v, i.op = .cast op src v ∧ isLosslessCast op src i.ty = true

theorem lossless_of_rename {old new : Nat} {i : Inst} (h : Lossless (renameInst old new i)) :
    Lossless i := by
  obtain ⟨op, src, v, cast, lossless⟩ := h
  cases is : i.op <;> simp [renameInst, Op.map, is] at cast
  obtain ⟨rfl, rfl, -⟩ := cast
  exact ⟨_, _, _, is, lossless⟩

theorem exec_plain {i : Inst} (other : ¬ Lossless i) (s : State V M) :
    exec S args noCells i s = execPlain S args i s := by
  unfold exec noCells
  split
  · rfl
  · rfl
  · rfl
  · next op src v cast => exact if_neg fun lossless => other ⟨op, src, v, cast, lossless⟩
  · rfl

section Types
variable {f : Function} (sem : IntegerSem S bits constBits) (typedArgs : TypedArgs args bits f)
include sem typedArgs

theorem eval_bits {regs : Nat → V} (typed : TypedRegs bits f regs) {v : Value} {w : Nat}
    (h : HasBits constBits f v w) : ∃ x, eval S args regs v = bits w x := by
  cases v with
  | inst i =>
    obtain ⟨B, hB, here⟩ := h
    exact typed B hB i w here
  | arg i => exact typedArgs i w h
  | const c =>
    cases c with
    | int b value =>
      obtain ⟨rfl, -⟩ := h
      exact ⟨_, sem.constant b value⟩
    | _ => exact sem.constants _ w h

/-- An instruction of an integer type computes an integer of this type. -/
theorem exec_bits (wellTyped : WellTyped constBits f) {B : Block} (hB : B ∈ f.blocks)
    {i : Inst} (hi : i ∈ B.body) {s : State V M} (typed : TypedRegs bits f s.regs) {w : Nat}
    (ty : i.ty = .int w) {v : V} {s' : State V M} (h : exec S args noCells i s = some (v, s')) :
    ∃ x, v = bits w x := by
  by_cases hands : Lossless i
  · obtain ⟨op, src, a, cast, lossless⟩ := hands
    rw [exec_lossless cast lossless] at h
    cases h
    rw [ty] at lossless
    obtain rfl : src = .int w := by
      unfold isLosslessCast at lossless
      split at lossless <;> simp_all
    exact eval_bits sem typedArgs typed (wellTyped.casts B hB i hi op w a cast).1
  · rw [exec_plain hands] at h
    obtain ⟨r, computed, eq⟩ := Option.map_eq_some_iff.mp h
    cases eq
    rw [ty] at computed
    exact sem.result w _ _ r computed

omit sem typedArgs in
theorem TypedRegs.update (wf : f.WellFormed) {B : Block} (hB : B ∈ f.blocks) {i : Nat}
    {ty : Ty} (here : (i, ty) ∈ B.defs) {regs : Nat → V} (typed : TypedRegs bits f regs)
    {v : V} (value : ∀ w, ty = .int w → ∃ x, v = bits w x) :
    TypedRegs bits f (Function.update regs i v) := by
  intro A hA j w defined
  by_cases same : j = i
  · subst same
    rw [Function.update_self]
    exact value w (wf.type_unique hB hA here defined)
  · rw [Function.update_of_ne same]
    exact typed A hA j w defined

theorem execBody_typed (wf : f.WellFormed) (wellTyped : WellTyped constBits f) {B : Block}
    (hB : B ∈ f.blocks) {is : List Inst} (inside : ∀ i ∈ is, i ∈ B.body) {s s' : State V M}
    (typed : TypedRegs bits f s.regs) (h : (execBody S args noCells is s).2 = some s') :
    TypedRegs bits f s'.regs := by
  induction is generalizing s with
  | nil =>
    cases h
    exact typed
  | cons i is ih =>
    simp only [execBody] at h
    split at h
    · cases h
    · next v t ran =>
      have hi := inside i List.mem_cons_self
      have here : (i.id, i.ty) ∈ B.defs := by
        simp only [Block.defs, List.mem_append, List.mem_map]
        exact Or.inr ⟨i, hi, rfl⟩
      refine ih (fun j hj => inside j (List.mem_cons_of_mem i hj)) ?_ h
      have kept : TypedRegs bits f t.regs := by
        rw [exec_regs ran]
        exact typed
      exact kept.update wf hB here fun w ty => exec_bits sem typedArgs wellTyped hB hi typed ty ran

theorem enterPhis_typed (wf : f.WellFormed) (wellTyped : WellTyped constBits f) {B : Block}
    (hB : B ∈ f.blocks) {ps : List Phi} (inside : ∀ q ∈ ps, q ∈ B.phis)
    {prev : Option Label} {old regs : Nat → V} (typed : TypedRegs bits f old)
    (h : enterPhis S args prev old ps = some regs) : TypedRegs bits f regs := by
  induction ps generalizing regs with
  | nil =>
    cases h
    exact typed
  | cons q ps ih =>
    simp only [enterPhis] at h
    split at h
    · next v rest selected entered =>
      cases h
      have hq := inside q List.mem_cons_self
      have here : (q.id, q.ty) ∈ B.defs := by
        simp only [Block.defs, List.mem_append, List.mem_map]
        exact Or.inl ⟨q, hq, rfl⟩
      obtain ⟨b, -, entry⟩ := valueFrom_mem selected
      refine (ih (fun r hr => inside r (List.mem_cons_of_mem q hr)) entered).update wf hB here ?_
      intro w ty
      exact eval_bits sem typedArgs typed (wellTyped.phis B hB q hq w ty v b entry)
    · cases h

end Types

/-! One conversion, seen from the state of a run. -/

/-- The second value is an `i64` that has the first one in its low bits. -/
def Widened (bits : (w : Nat) → BitVec w → V) (w : Nat) (a b : V) : Prop :=
  ∃ y : BitVec 64, b = bits 64 y ∧ a = bits w (y.setWidth w)

theorem setWidth_signExtend {w n : Nat} (x : BitVec w) (le : w ≤ n) :
    (x.signExtend n).setWidth w = x := by
  ext i hi
  simp only [BitVec.getElem_setWidth, BitVec.getLsbD_signExtend]
  have : i < n := by omega
  simp [this, hi]

section Conversion
variable {f : Function} {p : Phi} {w : Nat}

/-- Where the registers of the original function are found. -/
def home (f : Function) (p : Phi) (i : Nat) : Nat := if i = p.id then truncId f else i

variable (S args) in
theorem exec_renamed {s t : State V M} (rel : StateSim f.nextId (ExtendPhis.home f p) s t)
    {i : Inst} (old : ∀ j, Value.inst j ∈ i.op.operands → j < f.nextId) :
    exec S args noCells (renameInst p.id (truncId f) i) t =
      (exec S args noCells i s).map fun r => (r.1, { t with mem := r.2.mem }) := by
  by_cases hands : Lossless i
  · obtain ⟨op, src, v, cast, lossless⟩ := hands
    have cast' :
        (renameInst p.id (truncId f) i).op = .cast op src (renameValue p.id (truncId f) v) := by
      simp only [renameInst, cast, Op.map]
    have value :=
      eval_renameValue S args rel (v := v) fun j hj => old j (by simp [cast, Op.operands, hj])
    rw [exec_lossless cast lossless, exec_lossless cast' lossless, value,
      Option.map_some, ← rel.mem]
  · rw [exec_plain hands, exec_plain (fun h => hands (lossless_of_rename h))]
    have ops := map_eval_renameValue S args rel old
    simp only [execPlain, renameInst, ops, rel.mem, Option.map_map]
    rfl

theorem StateSim.setReg_old {s t : State V M} (rel : StateSim f.nextId (ExtendPhis.home f p) s t)
    {i : Nat} (hi : i < f.nextId) (notPhi : i ≠ p.id) (v : V) :
    StateSim f.nextId (ExtendPhis.home f p) (s.setReg i v) (t.setReg i v) where
  mem := rel.mem
  regs := by
    intro j hj
    have same := rel.regs j hj
    unfold ExtendPhis.home truncId at same ⊢
    by_cases here : j = i
    · subst here
      simp [State.setReg, notPhi]
    · have ne : (if j = p.id then f.nextId + 1 else j) ≠ i := by
        split_ifs <;> omega
      simp [State.setReg, here, ne, same]

/-- Casts write registers that the original function does not have. -/
theorem StateSim.setReg_cast {s t : State V M} (rel : StateSim f.nextId (ExtendPhis.home f p) s t)
    (k : Nat) (v : V) :
    StateSim f.nextId (ExtendPhis.home f p) s (t.setReg (castId f k) v) where
  mem := rel.mem
  regs := by
    intro j hj
    have same := rel.regs j hj
    unfold ExtendPhis.home truncId at same ⊢
    have ne : (if j = p.id then f.nextId + 1 else j) ≠ castId f k := by
      unfold castId
      split_ifs <;> omega
    simp [State.setReg, ne, same]

variable (S args) in
theorem execBody_renamed {is : List Inst} (original : ∀ i ∈ is, Original f p i) {s t : State V M}
    (rel : StateSim f.nextId (ExtendPhis.home f p) s t) :
    let a := execBody S args noCells is s
    let b := execBody S args noCells (is.map (renameInst p.id (truncId f))) t
    List.Forall₂ (EventSim f.nextId (ExtendPhis.home f p)) a.1 b.1 ∧ (a.2 = none → b.2 = none) ∧
      ∀ s', a.2 = some s' → ∃ t', b.2 = some t' ∧
        StateSim f.nextId (ExtendPhis.home f p) s' t' := by
  induction is generalizing s t with
  | nil =>
    refine ⟨.nil, by simp [execBody], ?_⟩
    intro s' h
    cases h
    exact ⟨t, rfl, rel⟩
  | cons i is ih =>
    have orig := original i List.mem_cons_self
    have one := exec_renamed S args rel orig.old
    have ops := map_eval_renameValue S args rel orig.old
    dsimp only
    simp only [execBody, List.map_cons, one]
    cases ran : exec S args noCells i s with
    | none =>
      refine ⟨.cons ⟨rfl, ops, rfl, rel⟩ .nil, fun _ => rfl, ?_⟩
      intro s' h
      cases h
    | some r =>
      obtain ⟨v, s'⟩ := r
      have rel' : StateSim f.nextId (ExtendPhis.home f p) s' { t with mem := s'.mem } := by
        refine ⟨?_, rfl⟩
        rw [exec_regs ran]
        exact rel.regs
      obtain ⟨events, trap, final⟩ := ih (fun j hj => original j (List.mem_cons_of_mem i hj))
        (StateSim.setReg_old rel' orig.own orig.notPhi v)
      exact ⟨.cons ⟨rfl, ops, rfl, rel⟩ events, trap, final⟩

theorem execBody_cast {id : Nat} {op : CastOp} {src dst : Nat} {a : Value} {x r : V}
    {t : State V M} (changes : op ≠ .bitCast) (operand : eval S args t.regs a = x)
    (computed : S.op (.int dst) (.cast op (.int src) x) t.mem = some (r, t.mem))
    (rest : List Inst) :
    execBody S args noCells (⟨id, .int dst, .cast op (.int src) a⟩ :: rest) t =
      (⟨id, t, .cast op (.int src) x, some r⟩ :: (execBody S args noCells rest (t.setReg id r)).1,
        (execBody S args noCells rest (t.setReg id r)).2) := by
  have hands : ¬ Lossless ⟨id, .int dst, .cast op (.int src) a⟩ := by
    rintro ⟨_, _, _, cast, lossless⟩
    cases cast
    cases op with
    | bitCast => exact changes rfl
    | _ => cases lossless
  have ran : exec S args noCells ⟨id, .int dst, .cast op (.int src) a⟩ t = some (r, t) := by
    rw [exec_plain hands]
    simp only [execPlain, Op.map, operand, computed, Option.map_some]
  simp only [execBody, ran, Op.map, operand]

/-- The casts hold the values that the phi lists for the block, and cost nothing else. -/
theorem execCasts (sem : IntegerSem S bits constBits) (typedArgs : TypedArgs args bits f)
    (lt : w < 64) {s t : State V M} (rel : StateSim f.nextId (ExtendPhis.home f p) s t)
    (typed : TypedRegs bits f s.regs) (l : Label) (k : Nat)
    {entries : List (Value × Label)} (old : ∀ i l, (Value.inst i, l) ∈ entries → i < f.nextId)
    (hasBits : ∀ v l, (v, l) ∈ entries → HasBits constBits f v w) :
    ∃ es t', execBody S args noCells
        ((phiCasts f w l k entries).map (renameInst p.id (truncId f))) t =
        (es, some t') ∧
      (∀ e ∈ es, f.nextId ≤ e.id) ∧ StateSim f.nextId (ExtendPhis.home f p) s t' ∧
      (∀ m, m < k → t'.regs (castId f m) = t.regs (castId f m)) ∧
      ∀ j v, entries[j]? = some (v, l) → isConstantInt v = false →
        Widened bits w (eval S args s.regs v) (t'.regs (castId f (k + j))) := by
  induction entries generalizing t k with
  | nil => exact ⟨[], t, rfl, by simp, rel, fun _ _ => rfl, by simp⟩
  | cons entry entries ih =>
    obtain ⟨v, b⟩ := entry
    have old' : ∀ i l, (Value.inst i, l) ∈ entries → i < f.nextId :=
      fun i l h => old i l (List.mem_cons_of_mem _ h)
    have hasBits' := fun u l h => hasBits u l (List.mem_cons_of_mem (v, b) h)
    have step : ∀ j, castId f (k + 1 + j) = castId f (k + (j + 1)) := by
      intro j
      rw [Nat.add_assoc, Nat.add_comm 1 j]
    by_cases here : b = l ∧ isConstantInt v = false
    · obtain ⟨rfl, other⟩ := here
      obtain ⟨x, value⟩ := eval_bits sem typedArgs typed (hasBits v b List.mem_cons_self)
      have operand : eval S args t.regs (renameValue p.id (truncId f) v) = bits w x :=
        (eval_renameValue S args rel fun i hi => old i b (hi ▸ List.mem_cons_self)).trans value
      have computed := sem.sext w 64 x t.mem lt
      have widened : Widened bits w (eval S args s.regs v) (bits 64 (x.signExtend 64)) :=
        ⟨_, rfl, by rw [setWidth_signExtend x (Nat.le_of_lt lt), value]⟩
      obtain ⟨es, t', ran, new, rel', kept, casts⟩ :=
        ih (StateSim.setReg_cast rel k (bits 64 (x.signExtend 64))) (k + 1) old' hasBits'
      refine ⟨⟨castId f k, t, .cast .sext (.int w) (bits w x),
        some (bits 64 (x.signExtend 64))⟩ :: es, t',
        ?_, ?_, rel', ?_, ?_⟩
      · rw [phiCasts, if_pos ⟨rfl, other⟩, List.map_cons]
        simp only [renameInst, createIntegerCast, if_neg (Nat.ne_of_lt lt),
          if_neg (Nat.not_lt.mpr (Nat.le_of_lt lt)), Op.map]
        rw [execBody_cast (by decide) operand computed, ran]
      · intro e he
        rcases List.mem_cons.mp he with rfl | he
        · change f.nextId ≤ castId f k
          unfold castId
          omega
        · exact new e he
      · intro m hm
        have ne : castId f m ≠ castId f k := by simp only [castId]; omega
        rw [kept m (by omega)]
        simp [State.setReg, ne]
      · rintro (_ | j) u at_j notConstant
        · cases at_j
          rw [Nat.add_zero, kept k (Nat.lt_succ_self k)]
          simpa [State.setReg] using widened
        · rw [← step]
          exact casts j u at_j notConstant
    · obtain ⟨es, t', ran, new, rel', kept, casts⟩ := ih rel (k + 1) old' hasBits'
      refine ⟨es, t', ?_, new, rel', fun m hm => kept m (by omega), ?_⟩
      · simpa only [phiCasts, if_neg here] using ran
      · rintro (_ | j) u at_j notConstant
        · cases at_j
          exact absurd ⟨rfl, notConstant⟩ here
        · rw [← step]
          exact casts j u at_j notConstant

/-- The wide phi selects an `i64` with the value of the narrow one in its low bits. -/
theorem widePhi_selects (sem : IntegerSem S bits constBits) (lt : w < 64)
    (hasBits : ∀ v l, (v, l) ∈ p.incoming → HasBits constBits f v w)
    {s t : State V M} {prev : Option Label}
    (casts : ∀ k v b, prev = some b → p.incoming[k]? = some (v, b) → isConstantInt v = false →
      Widened bits w (eval S args s.regs v) (t.regs (castId f k)))
    {v : Value} (selected : p.valueFrom prev = some v) :
    ∃ u, (widePhi f p).valueFrom prev = some u ∧
      Widened bits w (eval S args s.regs v) (eval S args t.regs u) := by
  cases prev with
  | none => cases selected
  | some b =>
    obtain ⟨⟨v', b'⟩, first, same⟩ := Option.map_eq_some_iff.mp selected
    cases same
    obtain ⟨label, k, short, at_k, before⟩ := List.find?_eq_some_iff_getElem.mp first
    have listed : p.incoming[k]? = some (v', b') := by rw [List.getElem?_eq_getElem short, at_k]
    refine ⟨wideValue f k v', ?_, ?_⟩
    · have found : (widePhi f p).incoming.find? (fun e => e.2 = b) =
          some (wideValue f k v', b') := by
        refine List.find?_eq_some_iff_getElem.mpr ⟨label, k, by simpa [widePhi] using short, ?_, ?_⟩
        · simp [widePhi, at_k]
        · intro j hj
          simpa [widePhi] using before j hj
      simp [Phi.valueFrom, found]
    · rcases wideValue_cases f k v' with ⟨_, value, rfl, wide⟩ | ⟨other, wide⟩ <;> rw [wide]
      · obtain ⟨same, small⟩ := hasBits _ _ (List.mem_of_getElem? listed)
        have below : 2 ^ w ≤ 2 ^ 64 := Nat.pow_le_pow_right (by decide) (Nat.le_of_lt lt)
        have whole : getLimitedValue value = value := Nat.min_eq_left (by omega)
        refine ⟨BitVec.ofNat 64 value, ?_, ?_⟩
        · rw [whole]
          exact sem.constant 64 value
        · rw [BitVec.setWidth_ofNat_of_le (Nat.le_of_lt lt)]
          rw [same]
          exact sem.constant w value
      · exact casts k v' b' (congrArg some (of_decide_eq_true label).symm) listed other

/-- Entering a block: the other phis select the same values as before, the wide phi the
widened value, and the register of the cast back is not touched. -/
theorem enterPhis_converted {prev : Option Label} {s t : State V M} {regs : Nat → V}
    (hp : p.id < f.nextId) (rel : StateSim f.nextId (ExtendPhis.home f p) s t) {ps : List Phi}
    (same : ∀ q ∈ ps, q.id = p.id → q = p)
    (nodup : (ps.map Phi.id).Nodup) (ids : ∀ q ∈ ps, q.id < f.nextId)
    (old : ∀ q ∈ ps, ∀ i l, (Value.inst i, l) ∈ q.incoming → i < f.nextId)
    (wide : ∀ v, p.valueFrom prev = some v → ∃ u, (widePhi f p).valueFrom prev = some u ∧
      Widened bits w (eval S args s.regs v) (eval S args t.regs u))
    (h : enterPhis S args prev s.regs ps = some regs) :
    ∃ regs', enterPhis S args prev t.regs (ps.map (convertedPhi f p)) = some regs' ∧
      (∀ i, i < f.nextId → i ≠ p.id → regs' i = regs i) ∧ regs' (truncId f) = t.regs (truncId f) ∧
      (p ∈ ps → Widened bits w (regs p.id) (regs' (wideId f))) := by
  induction ps generalizing regs with
  | nil =>
    cases h
    refine ⟨t.regs, rfl, ?_, rfl, by simp⟩
    intro i hi ne
    have := rel.regs i hi
    rwa [ExtendPhis.home, if_neg ne] at this
  | cons q ps ih =>
    rw [List.map_cons, List.nodup_cons] at nodup
    simp only [enterPhis] at h
    split at h
    · next v regs₀ selected htail =>
      cases h
      obtain ⟨regs', entered, others, trunc, widened⟩ :=
        ih (fun r hr => same r (List.mem_cons_of_mem q hr))
        nodup.2 (fun r hr => ids r (List.mem_cons_of_mem q hr))
          (fun r hr => old r (List.mem_cons_of_mem q hr)) htail
      by_cases here : q.id = p.id
      · obtain rfl := same q List.mem_cons_self here
        obtain ⟨u, selected', wider⟩ := wide v selected
        refine ⟨Function.update regs' (wideId f) (eval S args t.regs u), ?_, ?_, ?_, ?_⟩
        · have head : convertedPhi f q q = widePhi f q := if_pos rfl
          rw [List.map_cons, head]
          simp only [enterPhis, selected', entered]
          rfl
        · intro i hi ne
          have new : i ≠ wideId f := by unfold wideId; omega
          simp [new, ne, others i hi ne]
        · have new : truncId f ≠ wideId f := by unfold truncId wideId; omega
          simp [new, trunc]
        · intro _
          simpa using wider
      · have hq := ids q List.mem_cons_self
        obtain ⟨b, -, entry⟩ := valueFrom_mem selected
        have value : eval S args t.regs (renameValue p.id (truncId f) v) = eval S args s.regs v :=
          eval_renameValue S args rel (fun i hi => old q List.mem_cons_self i b (hi ▸ entry))
        refine ⟨Function.update regs' q.id (eval S args s.regs v), ?_, ?_, ?_, ?_⟩
        · rw [List.map_cons, convertedPhi, if_neg here]
          simp only [enterPhis, valueFrom_rename, selected, Option.map_some, entered, value]
          rfl
        · intro i hi ne
          by_cases own : i = q.id
          · subst own
            simp
          · simp [own, others i hi ne]
        · have ne : truncId f ≠ q.id := by unfold truncId; omega
          simp [ne, trunc]
        · intro member
          have there : p ∈ ps := (List.mem_cons.mp member).resolve_left fun eq => here (eq ▸ rfl)
          have ne : wideId f ≠ q.id := by unfold wideId; omega
          simpa [ne, Ne.symm here] using widened there
    · cases h

/-- At the start of a visit the casts hold what the phi lists for the previous block. -/
structure Ready (S : Sem V M) (args : Nat → V) (bits : (w : Nat) → BitVec w → V) (f : Function)
    (p : Phi) (w : Nat) (prev : Option Label) (s t : State V M) : Prop where
  sim : StateSim f.nextId (ExtendPhis.home f p) s t
  typed : TypedRegs bits f s.regs
  casts : ∀ k v b, prev = some b → p.incoming[k]? = some (v, b) → isConstantInt v = false →
    Widened bits w (eval S args s.regs v) (t.regs (castId f k))

/-- What the runs of both functions share. -/
structure Setting (S : Sem V M) (args : Nat → V) (bits : (w : Nat) → BitVec w → V)
    (constBits : Const → Nat → Prop) (f : Function) : Prop where
  sem : IntegerSem S bits constBits
  args : TypedArgs args bits f
  typed : WellTyped constBits f

/-- After the phis and the cast back the two functions are in related states. -/
theorem execTrunc
    (sem : IntegerSem S bits constBits) (narrow : Narrow f p w) {B : Block} (hB : B ∈ f.blocks)
    {prev : Option Label} {s t : State V M} (rel : StateSim f.nextId (ExtendPhis.home f p) s t)
    {regs regs' : Nat → V} (entered : enterPhis S args prev s.regs B.phis = some regs)
    (others : ∀ i, i < f.nextId → i ≠ p.id → regs' i = regs i)
    (trunc : regs' (truncId f) = t.regs (truncId f))
    (widened : p ∈ B.phis → Widened bits w (regs p.id) (regs' (wideId f))) :
    ∃ es t', execBody S args noCells
        ((ExtendPhis.prologue f p w B).map (renameInst p.id (truncId f)))
        { t with regs := regs' } = (es, some t') ∧
      (∀ e ∈ es, f.nextId ≤ e.id) ∧
        StateSim f.nextId (ExtendPhis.home f p) { s with regs := regs } t' := by
  have hp := narrow.rem.id_lt
  by_cases here : p.id ∈ B.phis.map Phi.id
  · obtain ⟨P, hP, member⟩ := narrow.rem.member
    obtain ⟨q, hq, same⟩ := List.mem_map.mp here
    obtain ⟨rfl, rfl⟩ := narrow.rem.wf.phi_unique hB hP hq member same
    obtain ⟨y, wide, value⟩ := widened hq
    have ne : wideId f ≠ q.id := by unfold wideId; omega
    have computed := sem.trunc 64 w y t.mem narrow.lt
    rw [← value] at computed
    refine ⟨[⟨truncId f, { t with regs := regs' }, .cast .trunc (.int 64) (bits 64 y),
      some (regs q.id)⟩],
      State.setReg { t with regs := regs' } (truncId f) (regs q.id), ?_, ?_, ⟨?_, rel.mem⟩⟩
    · rw [ExtendPhis.prologue, if_pos here, List.map_singleton]
      simp only [renameInst, phiTrunc, createIntegerCast, if_neg (Nat.ne_of_gt narrow.lt),
        if_pos narrow.lt,
        Op.map, renameValue, if_neg ne]
      have operand : eval S args ({ t with regs := regs' } : State V M).regs (.inst (wideId f)) =
        bits 64 y := wide
      exact execBody_cast (by decide) operand computed []
    · intro e he
      rw [List.mem_singleton.mp he]
      exact Nat.le_succ _
    · intro i hi
      unfold ExtendPhis.home
      by_cases isPhi : i = q.id
      · simp [State.setReg, isPhi]
      · have new : i ≠ truncId f := by unfold truncId; omega
        simp [State.setReg, isPhi, new, others i hi isPhi]
  · refine ⟨[], { t with regs := regs' }, ?_, by simp, ⟨?_, rel.mem⟩⟩
    · rw [ExtendPhis.prologue, if_neg here]
      rfl
    · intro i hi
      unfold ExtendPhis.home
      by_cases isPhi : i = p.id
      · have kept := rel.regs i hi
        subst isPhi
        rw [ExtendPhis.home, if_pos rfl] at kept
        simp only [if_true, trunc, kept]
        exact (enterPhis_other S args entered here).symm
      · simp only [if_neg isPhi, others i hi isPhi]

/-- The rewritten body of a block: the cast back, the original instructions, and the casts for
the next block. -/
theorem execConverted (setting : Setting S args bits constBits f) (narrow : Narrow f p w)
    {B : Block} (hB : B ∈ f.blocks)
    {prev : Option Label} {s t : State V M} (ready : Ready S args bits f p w prev s t)
    {regs regs' : Nat → V} (entered : enterPhis S args prev s.regs B.phis = some regs)
    (others : ∀ i, i < f.nextId → i ≠ p.id → regs' i = regs i)
    (trunc : regs' (truncId f) = t.regs (truncId f))
    (widened : p ∈ B.phis → Widened bits w (regs p.id) (regs' (wideId f))) :
    let a := execBody S args noCells B.body { s with regs := regs }
    let b := execBody S args noCells (convertBlock f p w B).body { t with regs := regs' }
    List.Forall₂ (EventSim f.nextId (ExtendPhis.home f p)) a.1
      (b.1.filter fun e => e.id < f.nextId) ∧
      (a.2 = none → b.2 = none) ∧
      ∀ s', a.2 = some s' → ∃ t', b.2 = some t' ∧ Ready S args bits f p w (some B.label) s' t' := by
  have wf := narrow.rem.wf
  obtain ⟨P, hP, member⟩ := narrow.rem.member
  obtain ⟨es₁, t₁, ran₁, new₁, rel₁⟩ :=
    execTrunc setting.sem narrow hB ready.sim entered others trunc widened
  obtain ⟨events, trap, final⟩ := execBody_renamed S args (narrow.rem.original hB) rel₁
  have kept := execBody_ids S args noCells (B.body.map (renameInst p.id (truncId f))) t₁
  have typed : ∀ s', (execBody S args noCells B.body { s with regs := regs }).2 = some s' →
      TypedRegs bits f s'.regs :=
    fun s' => execBody_typed setting.sem setting.args wf setting.typed hB (fun _ h => h)
      (enterPhis_typed setting.sem setting.args wf setting.typed hB (fun _ h => h)
        ready.typed entered)
  revert events trap final kept typed
  dsimp only
  rw [convertBlock_body, List.append_assoc, execBody_append, ran₁]
  dsimp only
  rw [execBody_append]
  generalize execBody S args noCells B.body { s with regs := regs } = a
  generalize execBody S args noCells (B.body.map (renameInst p.id (truncId f))) t₁ = b
  obtain ⟨as, final₁⟩ := a
  obtain ⟨bs, final₂⟩ := b
  intro events trap final kept typed
  have old : ∀ e ∈ bs, e.id < f.nextId := by
    intro e he
    obtain ⟨i, hi, same⟩ := List.mem_map.mp (kept e he)
    obtain ⟨j, hj, rfl⟩ := List.mem_map.mp hi
    exact same ▸ (narrow.rem.original hB j hj).own
  cases final₁ with
  | none =>
    have := trap rfl
    dsimp only at this
    subst this
    refine ⟨?_, fun _ => rfl, by simp⟩
    simpa [filter_new new₁, filter_old old] using events
  | some s' =>
    obtain ⟨t₂, h₂, rel₂⟩ := final s' rfl
    dsimp only at h₂
    subst h₂
    obtain ⟨es₃, t₃, ran₃, new₃, rel₃, -, casts⟩ :=
      execCasts setting.sem setting.args narrow.lt rel₂
      (typed s' rfl) B.label 0 narrow.rem.incoming_old
      (fun v l h => setting.typed.phis P hP p member w narrow.ty v l h)
    dsimp only
    rw [ran₃]
    refine ⟨?_, by simp, ?_⟩
    · simpa [filter_new new₁, filter_new new₃, filter_old old] using events
    · intro s'' h
      cases h
      refine ⟨t₃, rfl, rel₃, typed s' rfl, ?_⟩
      intro k v b same entry other
      cases same
      have cast := casts k v entry other
      rwa [Nat.zero_add] at cast

theorem visit_converted (setting : Setting S args bits constBits f)
    (found : phiToConvert f p.id = some (p, w)) (narrow : Narrow f p w)
    {prev : Option Label} {l : Label} (enters : Enters f prev l) {s t : State V M}
    (ready : Ready S args bits f p w prev s t) :
    let v := visit S args noCells f prev l s
    let v' := visit S args noCells (convertPHI f p.id) prev l t
    VisitSim f.nextId (ExtendPhis.home f p) v v' ∧
      ∀ s', v.after = some s' → ∃ t', v'.after = some t' ∧
        Ready S args bits f p w (some l) s' t' := by
  have wf := narrow.rem.wf
  have hp := narrow.rem.id_lt
  obtain ⟨P, hP, member⟩ := narrow.rem.member
  dsimp only
  unfold visit
  rw [SsaForm.block_rewritten (convertPHI_blocks found) convertBlock_label]
  cases atLabel : f.block l with
  | none => exact ⟨⟨rfl, rfl, ready.sim, .nil, .none, rfl⟩, by simp⟩
  | some B =>
    have hB : B ∈ f.blocks := List.mem_of_find?_eq_some atLabel
    have label : B.label = l := by simpa using List.find?_some atLabel
    subst label
    obtain ⟨regs, entered⟩ := enterPhis_isSome S args wf hB enters s.regs
    obtain ⟨regs', h', others, trunc, widened⟩ := enterPhis_converted hp ready.sim
      (fun q hq same => (wf.phi_unique hB hP hq member same).2) (wf.phi_ids_nodup hB)
      (narrow.rem.phi_ids_lt hB) (narrow.rem.phi_uses_lt hB)
      (fun v => widePhi_selects setting.sem narrow.lt
        (fun v l h => setting.typed.phis P hP p member w narrow.ty v l h) ready.casts) entered
    have entered' : enterPhis S args prev t.regs (convertBlock f p w B).phis = some regs' := by
      rw [convertBlock_phis hp]
      exact h'
    have converted := execConverted setting narrow hB ready entered others trunc widened
    simp only [Option.map_some, entered, entered']
    revert converted
    dsimp only
    generalize execBody S args noCells B.body { s with regs := regs } = a
    generalize execBody S args noCells (convertBlock f p w B).body { t with regs := regs' } = b
    obtain ⟨as, final₁⟩ := a
    obtain ⟨bs, final₂⟩ := b
    rintro ⟨events, trap, final⟩
    cases final₁ with
    | none =>
      have := trap rfl
      dsimp only at this
      subst this
      exact ⟨⟨rfl, rfl, ready.sim, events, .none, rfl⟩, by simp⟩
    | some s' =>
      obtain ⟨t', h', ready'⟩ := final s' rfl
      dsimp only at h'
      subst h'
      refine ⟨⟨rfl, rfl, ready.sim, events, .some ready'.sim, ?_⟩, ?_⟩
      · have same : (convertBlock f p w B).term.map (eval S args t'.regs) =
            B.term.map (eval S args s'.regs) := by
          change (B.term.map (renameValue p.id (truncId f))).map (eval S args t'.regs) = _
          rw [Term.map_map]
          refine Term.map_congr fun v hv => eval_renameValue S args ready'.sim fun i hi => ?_
          exact wf.uses_lt hB (term_use (hi ▸ hv))
        simp only [same]
      · intro s'' h
        cases h
        exact ⟨t', rfl, ready'⟩

theorem run_converted (setting : Setting S args bits constBits f)
    (found : phiToConvert f p.id = some (p, w)) (narrow : Narrow f p w)
    (n : Nat) {prev : Option Label} {l : Label} (enters : Enters f prev l) {s t : State V M}
    (ready : Ready S args bits f p w prev s t) :
    List.Forall₂ (VisitSim f.nextId (ExtendPhis.home f p)) (run S args noCells f n prev l s)
      (run S args noCells (convertPHI f p.id) n prev l t) := by
  induction n generalizing prev l s t with
  | zero => exact .nil
  | succ n ih =>
    obtain ⟨sim, next⟩ := visit_converted setting found narrow enters ready
    simp only [run, sim.exit]
    cases hx : (visit S args noCells f prev l s).exit with
    | goto l' =>
      have enters' := visit_enters S args hx
      cases ha : (visit S args noCells f prev l s).after with
      | none =>
        have none' := sim.after
        rw [ha] at none'
        generalize (visit S args noCells (convertPHI f p.id) prev l t).after = after at none'
        cases none'
        exact .cons sim .nil
      | some s' =>
        obtain ⟨t', ht', ready'⟩ := next s' ha
        rw [ht']
        exact .cons sim (ih enters' ready')
    | ret v => exact .cons sim .nil
    | trap => exact .cons sim .nil

theorem call_converted (setting : Setting S args bits constBits f)
    (found : phiToConvert f p.id = some (p, w)) (narrow : Narrow f p w) (n : Nat) (mem : M) :
    List.Forall₂ (VisitSim f.nextId (ExtendPhis.home f p)) (call S args noCells f n mem)
      (call S args noCells (convertPHI f p.id) n mem) := by
  unfold call
  rw [convertPHI_entry found]
  cases start : f.entry with
  | none => exact .nil
  | some E =>
    refine run_converted setting found narrow n (.entry start) ⟨⟨fun _ _ => rfl, rfl⟩, ?_, ?_⟩
    · exact fun _ _ _ w _ => setting.sem.undef w
    · intro k v b h
      cases h

end Conversion

theorem convertAll_runs {f : Function} (setting : Setting S args bits constBits f)
    (verified : Verified f) (small : AtMost64 f) (single : SingleCasts f) (phis : List Nat)
    (n : Nat) (mem : M) :
    List.Forall₂ (VisitSim f.nextId (relocated f phis)) (call S args noCells f n mem)
      (call S args noCells (convertAll f phis) n mem) := by
  induction phis generalizing f with
  | nil => exact call_self S args noCells verified.ssa.wf n mem
  | cons i phis ih =>
    change List.Forall₂ (VisitSim f.nextId (relocated (convertPHI f i) phis ∘ moved f i)) _
      (call S args noCells (convertAll (convertPHI f i) phis) n mem)
    rcases convertPHI_cases verified.ssa.wf small i with ⟨none, same⟩ | ⟨p, w, rfl, found, narrow⟩
    · have stays : moved f i = fun j => j := by
        funext j
        simp [moved, none]
      rw [same, stays]
      exact ih setting verified small single
    · have moves : moved f p.id = ExtendPhis.home f p := by
        funext j
        simp [moved, ExtendPhis.home, found]
      have next := convertPHI_nextId found
      have rest := ih ⟨setting.sem, by rw [TypedArgs, convertPHI_args found]; exact setting.args,
        convertPHI_wellTyped found narrow setting.typed⟩
        (convertPHI_verified found verified narrow (single.of_narrow narrow))
        (atMost64_converted found narrow small) (singleCasts_converted found narrow single)
      rw [moves]
      refine runs_trans (by omega) ?_ (call_converted setting found narrow n mem) rest
      intro j hj
      unfold ExtendPhis.home truncId
      split_ifs <;> omega

/-- The conversion is transparent: the function it produces is valid, and in every run from the
same arguments and memory the same blocks are visited, the original instructions find and
compute the same values, and the run ends in the same way. A former phi is read from the
register that `relocated` names, everything else from its own. -/
def Transparent (constBits : Const → Nat → Prop) (S : Sem V M) (args : Nat → V)
    (f : Function) : Prop :=
  Valid constBits (convertPHIs f) ∧
    (∀ n mem, List.Forall₂ (VisitSim f.nextId (relocated f (phiIds f)))
      (call S args noCells f n mem) (call S args noCells (convertPHIs f) n mem)) ∧
    ∀ i, i ∉ phiIds f → relocated f (phiIds f) i = i

theorem relocated_other {f : Function} {phis : List Nat} {i : Nat} (h : i ∉ phis) :
    relocated f phis i = i := by
  induction phis generalizing f with
  | nil => rfl
  | cons p phis ih =>
    rw [List.mem_cons, not_or] at h
    simpa only [relocated, moved, h.1, false_and, if_false] using ih h.2

theorem convertPHIs_transparent_iff {f : Function} (sem : IntegerSem S bits constBits)
    (typedArgs : TypedArgs args bits f) (valid : Valid constBits f) (small : AtMost64 f) :
    Transparent constBits S args f ↔ SingleCasts f := by
  constructor
  · intro transparent
    exact singleCasts_of_wellFormed valid.verified small transparent.1.verified.ssa.wf
  · intro single
    refine ⟨convertAll_valid valid small single (phiIds f), ?_,
      fun i other => relocated_other other⟩
    exact fun n mem =>
      convertAll_runs ⟨sem, typedArgs, valid.typed⟩ valid.verified small single (phiIds f) n mem

/-- No constants but `ConstantInt`s. -/
def noConstants : Const → Nat → Prop := fun _ _ => False

def wordBits (w : Nat) (x : BitVec w) : Nat := x.toNat

/-- Besides casts nothing is computed. -/
def wordOp (n : Nat) : Op Nat → Nat
  | .cast .trunc _ v => v
  | .cast .sext (.int m) v => ((BitVec.ofNat m v).signExtend n).toNat
  | _ => 0

/-- Numbers as integers of every width. -/
def wordSem : Sem Nat Unit where
  const
    | .int w value => value % 2 ^ w
    | _ => 0
  undef := 0
  op
    | .int n, op, mem => some (wordOp n op % 2 ^ n, mem)
    | _, _, mem => some (0, mem)
  truth v := v ≠ 0
  toNat v := v

theorem wordSem_integers : IntegerSem wordSem wordBits noConstants where
  constant w value := rfl
  constants _ _ h := h.elim
  undef w := ⟨0#w, by simp [wordBits, wordSem]⟩
  result w op mem r h := by
    cases h
    exact ⟨BitVec.ofNat w (wordOp w op), rfl⟩
  trunc m n x mem lt := by simp [wordSem, wordOp, wordBits]
  sext m n x mem lt := by simp [wordSem, wordOp, wordBits, Nat.mod_eq_of_lt (BitVec.isLt _)]

theorem swapLoop_strictDom : SsaForm.StrictDom swapLoop 1 2 := by
  refine ⟨_, rfl, fun path => ?_⟩
  have inside : ∀ l, Relation.ReflTransGen (Dominance.Avoids swapLoop.Edge 1) 0 l →
      l = 0 ∨ l = 1 := by
    intro l path
    induction path with
    | refl => exact Or.inl rfl
    | tail _ edge ih =>
      obtain ⟨⟨B, block, succ⟩, stays⟩ := edge
      rcases ih with rfl | rfl
      · cases block
        exact Or.inr (List.mem_singleton.mp succ)
      · exact absurd rfl stays
  rcases inside 2 path with h | h <;> cases h

theorem swapLoop_ssa : SsaForm.Ssa swapLoop where
  wf := swapLoop_wellFormed
  body := by
    intro B hB _ k i at_k
    simp only [swapLoop, List.mem_cons, List.not_mem_nil, or_false] at hB
    rcases hB with rfl | rfl | rfl <;> cases at_k
  term := by
    intro B hB _ d use
    simp only [swapLoop, List.mem_cons, List.not_mem_nil, or_false] at hB
    rcases hB with rfl | rfl | rfl <;> simp [Term.operands] at use
    subst use
    exact .dominated (List.mem_cons_of_mem _ List.mem_cons_self) (by simp [Block.defs])
      swapLoop_strictDom
  phi := by
    intro B hB p hp A hA _ d entry
    have phis : d = 1 ∨ d = 2 := by
      simp only [swapLoop, List.mem_cons, List.not_mem_nil, or_false] at hB
      rcases hB with rfl | rfl | rfl <;> simp at hp
      rcases hp with rfl | rfl <;> simp at entry <;> simp [entry.1]
    have back : A.label = 1 := by
      simp only [swapLoop, List.mem_cons, List.not_mem_nil, or_false] at hB
      rcases hB with rfl | rfl | rfl <;> simp at hp
      rcases hp with rfl | rfl <;> simp at entry <;> exact entry.2
    rw [back]
    exact .phi rfl (by rcases phis with rfl | rfl <;> simp)

theorem swapLoop_valid : Valid noConstants swapLoop where
  verified := ⟨swapLoop_ssa, by decide, by unfold EntryPerEdge; decide⟩
  typed := by
    constructor
    case phis =>
      intro B hB p hp w ty v l entry
      simp only [swapLoop, List.mem_cons, List.not_mem_nil, or_false] at hB
      rcases hB with rfl | rfl | rfl <;> simp at hp
      have defined : ∀ d, d = 1 ∨ d = 2 → HasBits noConstants swapLoop (.inst d) 32 := by
        intro d hd
        refine ⟨_, List.mem_cons_of_mem _ List.mem_cons_self, ?_⟩
        rcases hd with rfl | rfl <;> simp [Block.defs]
      rcases hp with rfl | rfl <;> cases ty <;> simp at entry <;>
        rcases entry with ⟨rfl, -⟩ | ⟨rfl, -⟩
      · exact rfl
      · exact defined 2 (Or.inr rfl)
      · exact rfl
      · exact defined 1 (Or.inl rfl)
    case casts =>
      intro B hB i hi
      simp only [swapLoop, List.mem_cons, List.not_mem_nil, or_false] at hB
      rcases hB with rfl | rfl | rfl <;> cases hi

theorem swapLoop_singleCasts : SingleCasts swapLoop := by
  rintro B hB p hp w - - ⟨j, k, v, u, l, ne, at_j, at_k, -⟩
  have apart : (p.incoming.map Prod.snd).Nodup := by
    simp only [swapLoop, List.mem_cons, List.not_mem_nil, or_false] at hB
    rcases hB with rfl | rfl | rfl <;> simp at hp
    rcases hp with rfl | rfl <;> decide
  obtain ⟨short, here⟩ := List.getElem?_eq_some_iff.mp at_j
  refine ne ((List.getElem?_inj (by simpa using short) apart).mp ?_)
  rw [List.getElem?_map, List.getElem?_map, at_j, at_k]
  rfl

theorem convertPHIs_transparent_swapLoop :
    SingleCasts swapLoop ∧ Transparent noConstants wordSem (fun i => min i 1) swapLoop := by
  refine ⟨swapLoop_singleCasts,
    (convertPHIs_transparent_iff wordSem_integers ?_ swapLoop_valid ?_).mpr
    swapLoop_singleCasts⟩
  · intro i w h
    refine ⟨BitVec.ofNat w (min i 1), ?_⟩
    have wide : 1 < 2 ^ w := by
      rcases i with _ | _ | _ | i <;> cases h <;> decide
    rw [wordBits, BitVec.toNat_ofNat, Nat.mod_eq_of_lt (by omega)]
  · intro B hB p hp w ty
    simp only [swapLoop, List.mem_cons, List.not_mem_nil, or_false] at hB
    rcases hB with rfl | rfl | rfl <;> simp at hp
    rcases hp with rfl | rfl <;> cases ty <;> decide

/-- A branch with both arms to one block lists its value twice there. -/
def doubleEdge : Function where
  args := [.int 1, .int 32]
  nextId := 3
  blocks :=
    [⟨0, [], [], 0, .condBr (.arg 0) 1 1⟩,
     ⟨1, [⟨1, .int 32, [(.arg 1, 0), (.arg 1, 0)]⟩], [], 2, .ret (some (.inst 1))⟩]

theorem doubleEdge_wellFormed : doubleEdge.WellFormed := by
  constructor
  case labels => decide
  case ids => decide
  case fresh => decide
  case uses =>
    intro B hB i hi
    simp only [doubleEdge, List.mem_cons, List.not_mem_nil, or_false] at hB
    rcases hB with rfl | rfl <;> simp [Block.uses, Term.operands] at hi
    subst hi
    exact ⟨_, List.mem_cons_of_mem _ List.mem_cons_self, .int 32, by simp [Block.defs], rfl⟩
  case argUses =>
    intro B hB i hi
    simp only [doubleEdge, List.mem_cons, List.not_mem_nil, or_false] at hB
    rcases hB with rfl | rfl <;> simp [Block.uses, Term.operands] at hi <;>
      simp only [doubleEdge, List.length_cons, List.length_nil] <;> omega
  case phiTypes =>
    intro B hB q hq
    simp only [doubleEdge, List.mem_cons, List.not_mem_nil, or_false] at hB
    rcases hB with rfl | rfl <;> simp at hq
    subst hq
    rfl
  case storeTypes =>
    intro B hB i hi
    simp only [doubleEdge, List.mem_cons, List.not_mem_nil, or_false] at hB
    rcases hB with rfl | rfl <;> cases hi
  case loadTypes =>
    intro B hB i hi
    simp only [doubleEdge, List.mem_cons, List.not_mem_nil, or_false] at hB
    rcases hB with rfl | rfl <;> cases hi
  case entryPhis =>
    intro B hB
    cases hB
    rfl
  case entryPreds =>
    intro B hB A hA
    cases hB
    simp only [doubleEdge, List.mem_cons, List.not_mem_nil, or_false] at hA
    rcases hA with rfl | rfl <;> simp [Term.successors]
  case complete =>
    intro A hA B hB edge p hp
    simp only [doubleEdge, List.mem_cons, List.not_mem_nil, or_false] at hA hB
    rcases hA with rfl | rfl <;> rcases hB with rfl | rfl <;> simp [Term.successors] at edge
    rw [List.mem_singleton.mp hp]
    exact ⟨.arg 1, List.mem_cons_self⟩
  case preds =>
    intro B hB p hp v l entry
    simp only [doubleEdge, List.mem_cons, List.not_mem_nil, or_false] at hB
    rcases hB with rfl | rfl
    · cases hp
    · rw [List.mem_singleton.mp hp] at entry
      simp at entry
      exact ⟨_, List.mem_cons_self, entry.2.symm, by simp [Term.successors]⟩
  case agree =>
    intro B hB p hp l v w hv hw
    simp only [doubleEdge, List.mem_cons, List.not_mem_nil, or_false] at hB
    rcases hB with rfl | rfl
    · cases hp
    · rw [List.mem_singleton.mp hp] at hv hw
      simp at hv hw
      rw [hv.1, hw.1]

theorem doubleEdge_valid : Valid noConstants doubleEdge where
  verified := by
    refine ⟨⟨doubleEdge_wellFormed, ?_, ?_, ?_⟩, by decide, by unfold EntryPerEdge; decide⟩
    · intro B hB _ k i at_k
      simp only [doubleEdge, List.mem_cons, List.not_mem_nil, or_false] at hB
      rcases hB with rfl | rfl <;> cases at_k
    · intro B hB _ d use
      simp only [doubleEdge, List.mem_cons, List.not_mem_nil, or_false] at hB
      rcases hB with rfl | rfl <;> simp [Term.operands] at use
      subst use
      exact .phi rfl (by simp)
    · intro B hB p hp A _ _ d entry
      simp only [doubleEdge, List.mem_cons, List.not_mem_nil, or_false] at hB
      rcases hB with rfl | rfl <;> simp at hp
      subst hp
      simp at entry
  typed := by
    constructor
    case phis =>
      intro B hB p hp w ty v l entry
      simp only [doubleEdge, List.mem_cons, List.not_mem_nil, or_false] at hB
      rcases hB with rfl | rfl <;> simp at hp
      subst hp
      cases ty
      simp at entry
      rw [entry.1]
      exact rfl
    case casts =>
      intro B hB i hi
      simp only [doubleEdge, List.mem_cons, List.not_mem_nil, or_false] at hB
      rcases hB with rfl | rfl <;> cases hi

/-- The new phi lists two casts for the block, which the verifier rejects. -/
theorem doubleEdge_invalid : Valid noConstants doubleEdge ∧ AtMost64 doubleEdge ∧
    ¬ Transparent noConstants wordSem (fun i => min i 1) doubleEdge := by
  have small : AtMost64 doubleEdge := by
    intro B hB p hp w ty
    simp only [doubleEdge, List.mem_cons, List.not_mem_nil, or_false] at hB
    rcases hB with rfl | rfl <;> simp at hp
    subst hp
    cases ty
    decide
  refine ⟨doubleEdge_valid, small, fun transparent => ?_⟩
  have single :=
    singleCasts_of_wellFormed doubleEdge_valid.verified small transparent.1.verified.ssa.wf
  refine single _ (List.mem_cons_of_mem _ List.mem_cons_self) _ List.mem_cons_self 32 rfl
    (by decide) ?_
  exact ⟨0, 1, .arg 1, .arg 1, 0, by decide, rfl, rfl, rfl⟩

end ExtendPhis
