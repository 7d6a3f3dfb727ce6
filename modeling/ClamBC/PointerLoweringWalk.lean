import ClamBC.PointerLowering
import ClamBC.SsaChecks
import Mathlib.Data.List.Induction

/-!
# The form of the function during the walk

An addition, a getelementptr and a comparison get their new instructions in front of themselves, and
the function stays in static single assignment form. For a `ptrtoint` this depends on where the
builder was put last. A walk is right if every one of its steps is.
-/

namespace PointerLowering

open Ir SsaForm FunctionEdits

/-! ## The builder -/

section
variable {llvm : Llvm} {P : Value → Prop}

theorem create_cases (llvm : Llvm) (id : Nat) (ty : Ty) {op : Op Value} (reads : op.operands ≠ []) :
    (∃ c, create llvm id ty op = (.const c, []) ∧ op.operands.all isConst = true) ∨
    (create llvm id ty op = (.inst id, [⟨id, ty, op⟩]) ∧ op.operands.all isConst = false) := by
  have folds := llvm.folds op ty reads
  cases folded : llvm.fold op ty with
  | some c =>
    rw [folded] at folds
    refine .inl ⟨c, ?_, folds.symm⟩
    rw [create, folded]
  | none =>
    rw [folded] at folds
    refine .inr ⟨?_, folds.symm⟩
    rw [create, folded]

theorem ends_empty {news : List Inst} {V : Value} (ends : Ends news V) (const : isConst V = true) :
    news = [] := by
  cases ends with
  | const c => rfl
  | inst front last => cases const

theorem ends_inst {news : List Inst} {V : Value} (ends : Ends news V)
    (notConst : isConst V = false) : ∃ a, V = .inst a := by
  cases ends with
  | const c => cases notConst
  | inst front last => exact ⟨_, rfl⟩

/-- New instructions have values and their numbers are in a range. -/
structure Numbered (lo hi : Nat) (news : List Inst) : Prop where
  value : ∀ j ∈ news, j.ty.isVoid = false
  store : ∀ j ∈ news, ∀ v a, j.op ≠ .store v a
  ids : ∀ j ∈ news, lo ≤ j.id ∧ j.id < hi
  nodup : (news.map Inst.id).Nodup

theorem numbered_nil (lo hi : Nat) : Numbered lo hi [] := ⟨nofun, nofun, nofun, List.nodup_nil⟩

theorem numbered_single (id : Nat) {ty : Ty} (value : ty.isVoid = false) {op : Op Value}
    (notStore : ∀ v a, op ≠ .store v a) :
    Numbered id (id + 1) [⟨id, ty, op⟩] := by
  refine ⟨?_, ?_, ?_, List.nodup_singleton _⟩
  all_goals
    intro j hj
    rw [List.mem_singleton.mp hj]
  · exact value
  · exact notStore
  · exact ⟨Nat.le_refl id, Nat.lt_succ_self id⟩

theorem Numbered.mono {lo hi hi' : Nat} {news : List Inst} (numbered : Numbered lo hi news)
    (le : hi ≤ hi') : Numbered lo hi' news :=
  { numbered with ids := fun j hj => ⟨(numbered.ids j hj).1, (numbered.ids j hj).2.trans_le le⟩ }

theorem Numbered.append {lo mid hi : Nat} {first second : List Inst}
    (one : Numbered lo mid first) (two : Numbered mid hi second) (le : lo ≤ mid) (le' : mid ≤ hi) :
    Numbered lo hi (first ++ second) := by
  constructor
  case value => exact fun j hj => (List.mem_append.mp hj).elim (one.value j) (two.value j)
  case store => exact fun j hj => (List.mem_append.mp hj).elim (one.store j) (two.store j)
  case ids =>
    intro j hj
    rcases List.mem_append.mp hj with inFirst | inSecond
    · have := one.ids j inFirst
      omega
    · have := two.ids j inSecond
      omega
  case nodup =>
    rw [List.map_append]
    refine List.nodup_append.mpr ⟨one.nodup, two.nodup, ?_⟩
    intro a ha b hb
    obtain ⟨j, hj, rfl⟩ := List.mem_map.mp ha
    obtain ⟨k, hk, rfl⟩ := List.mem_map.mp hb
    have below := (one.ids j hj).2
    have above := (two.ids k hk).1
    omega

/-- Instructions that were created one after another, and the value that the next one reads. -/
structure Built (P : Value → Prop) (lo hi : Nat) (new : Value × List Inst) :
    Prop extends Numbered lo hi new.2 where
  chain : Chain P new.2
  given : Given P new.2 new.1
  folded : isConst new.1 = true → new.2 = []

theorem Given.mono {news : List Inst} {v : Value} (given : Given P news v) (more : List Inst) :
    Given P (news ++ more) v := by
  refine given.imp_right fun rest => rest.imp_left ?_
  rintro ⟨d, hd, rfl⟩
  exact ⟨d, by rw [List.map_append]; exact List.mem_append_left _ hd, rfl⟩

theorem built_nil {v : Value} (lo hi : Nat) (given : Given P [] v) : Built P lo hi (v, []) where
  toNumbered := numbered_nil lo hi
  chain := fun first j last split => by
    have := congrArg List.length split
    simp at this
  given := given
  folded := fun _ => rfl

/-- One more instruction that reads the value. -/
theorem Built.next {lo hi : Nat} {new : Value × List Inst}
    (built : Built P lo hi new) (le : lo ≤ hi) (llvm : Llvm) {ty : Ty} (value : ty.isVoid = false)
    (op : Op Value) (notStore : ∀ v a, op ≠ .store v a) (reads : new.1 ∈ op.operands)
    (others : ∀ v ∈ op.operands, v = new.1 ∨ Given P [] v) :
    Built P lo (hi + 1) ((create llvm hi ty op).1, new.2 ++ (create llvm hi ty op).2) := by
  have operands : op.operands ≠ [] := List.ne_nil_of_mem reads
  rcases create_cases llvm hi ty operands with ⟨c, eq, all⟩ | ⟨eq, some⟩
  · have const : isConst new.1 = true := List.all_eq_true.mp all _ reads
    rw [eq, built.folded const, List.append_nil]
    exact built_nil lo _ (.inl ⟨c, rfl⟩)
  · rw [eq]
    constructor
    case toNumbered =>
      exact built.toNumbered.append (numbered_single hi value notStore) le (Nat.le_succ hi)
    case chain =>
      intro first j last split v operand
      rcases List.eq_nil_or_concat last with rfl | ⟨front, final, rfl⟩
      · obtain ⟨rfl, same⟩ := List.append_inj' split rfl
        cases same
        rcases others v operand with rfl | there
        · exact built.given
        · exact Given.mono there new.2
      · rw [List.concat_eq_append, ← List.cons_append, ← List.append_assoc] at split
        exact built.chain first j front (List.append_inj' split rfl).1 v operand
    case given =>
      refine .inr (.inl ⟨hi, ?_, rfl⟩)
      rw [List.map_append]
      exact List.mem_append_right _ (List.mem_singleton_self _)
    case folded => nofun

/-- The created instruction comes last. -/
theorem Built.ends {lo hi : Nat} {new : Value × List Inst} (built : Built P lo hi new)
    (llvm : Llvm) (id : Nat) (ty : Ty) (op : Op Value) (reads : new.1 ∈ op.operands) :
    Ends (new.2 ++ (create llvm id ty op).2) (create llvm id ty op).1 := by
  have operands : op.operands ≠ [] := List.ne_nil_of_mem reads
  rcases create_cases llvm id ty operands with ⟨c, eq, all⟩ | ⟨eq, -⟩
  · have const : isConst new.1 = true := List.all_eq_true.mp all _ reads
    rw [eq, built.folded const]
    exact .const c
  · rw [eq]
    exact .inst new.2 ⟨id, ty, op⟩

theorem Built.fits {f : Function} {count : Nat} {new : Value × List Inst}
    (built : Built P f.nextId (f.nextId + count) new) (point erased : Option Nat) (n : Nat) :
    (Edit.replace point new.2 erased n new.1).Fits count f := by
  constructor
  case value =>
    intro j' hj'
    obtain ⟨j, hj, rfl⟩ := List.mem_map.mp hj'
    exact built.value j hj
  case store =>
    intro j' hj' v a store
    obtain ⟨j, hj, rfl⟩ := List.mem_map.mp hj'
    obtain ⟨v', a', store'⟩ := (Edit.replace point new.2 erased n new.1).update_store j v a store
    exact built.store j hj v' a' store'
  case nodup =>
    show ((new.2.map (substituteInst n new.1)).map Inst.id).Nodup
    rw [map_substitute_ids]
    exact built.nodup
  case new =>
    intro j' hj'
    obtain ⟨j, hj, rfl⟩ := List.mem_map.mp hj'
    exact built.ids j hj

end

/-! ## What is created -/

section
variable {llvm : Llvm} {P : Value → Prop} {f : Function}

theorem createAdd_built (llvm : Llvm) {p idx : Value} (hp : Given P [] p)
    (hidx : Given P [] idx) (w : Nat) :
    Built P f.nextId (f.nextId + 3) (createAdd llvm f p idx (.int w)) ∧
      Ends (createAdd llvm f p idx (.int w)).2 (createAdd llvm f p idx (.int w)).1 := by
  have start : Built P f.nextId f.nextId (p, []) := built_nil _ _ hp
  have bytes : Built P f.nextId (f.nextId + 1)
      (if llvm.isInt8Ptr p then (p, []) else
        create llvm f.nextId .ptr (.cast .bitCast .ptr p)) := by
    split_ifs
    · exact built_nil _ _ hp
    · exact start.next (Nat.le_refl _) llvm rfl _ nofun List.mem_cons_self fun v hv =>
        .inl (List.mem_singleton.mp hv)
  have address :=
    bytes.next (by omega) llvm (show Ty.ptr.isVoid = false from rfl) (.getElementPtr _ [idx]) nofun
    List.mem_cons_self fun v hv => by
      rcases List.mem_cons.mp hv with rfl | index
      · exact .inl rfl
      · rw [List.mem_singleton.mp index]
        exact .inr hidx
  exact ⟨address.next (by omega) llvm rfl (.cast .ptrToInt .ptr _) nofun List.mem_cons_self
    fun v hv => .inl (List.mem_singleton.mp hv),
    address.ends llvm _ _ _ List.mem_cons_self⟩

theorem createICmp_built {lhs : Value} (hlhs : Given P [] lhs) (pred : Predicate) (rhs : Const)
    (w w₁ : Nat) (ty : typeOf llvm f (.const rhs) = .int w₁) :
    Built P f.nextId (f.nextId + 2) (createICmp llvm f pred lhs rhs (.int w)) ∧
      Ends (createICmp llvm f pred lhs rhs (.int w)).2
        (createICmp llvm f pred lhs rhs (.int w)).1 := by
  have start : Built P f.nextId f.nextId (lhs, []) := built_nil _ _ hlhs
  have value : (typeOf llvm f (.const rhs)).isVoid = false := by rw [ty]; rfl
  have address :=
    start.next (Nat.le_refl _) llvm value (.cast .ptrToInt .ptr lhs) nofun List.mem_cons_self
    fun v hv => .inl (List.mem_singleton.mp hv)
  refine ⟨address.next (by omega) llvm rfl (.icmp pred _ (.const rhs)) nofun List.mem_cons_self
    fun v hv => ?_,
    address.ends llvm _ _ _ List.mem_cons_self⟩
  rcases List.mem_cons.mp hv with rfl | const
  · exact .inl rfl
  · rw [List.mem_singleton.mp const]
    exact .inr (.inl ⟨rhs, rfl⟩)

theorem createSum_built (llvm : Llvm) {base idx : Value} (hbase : Given P [] base)
    (hidx : Given P [] idx) (w w₁ : Nat) :
    Built P f.nextId (f.nextId + 3) (createSum llvm f base idx w w₁) ∧
      Ends (createSum llvm f base idx w w₁).2 (createSum llvm f base idx w w₁).1 := by
  have start : Built P f.nextId f.nextId (base, []) := built_nil _ _ hbase
  have P0 := start.next (Nat.le_refl _) llvm (show (Ty.int w₁).isVoid = false from rfl)
    (.cast .ptrToInt .ptr base) nofun List.mem_cons_self
    fun v hv => .inl (List.mem_singleton.mp hv)
  have reads : ∀ v ∈ (Op.binary .add
      (create llvm f.nextId (.int w₁) (.cast .ptrToInt .ptr base)).1 idx).operands,
      v = (create llvm f.nextId (.int w₁) (.cast .ptrToInt .ptr base)).1 ∨ Given P [] v := by
    intro v hv
    rcases List.mem_cons.mp hv with rfl | index
    · exact .inl rfl
    · rw [List.mem_singleton.mp index]
      exact .inr hidx
  have A := P0.next (by omega) llvm (show (Ty.int w₁).isVoid = false from rfl) (.binary .add _ idx)
    nofun List.mem_cons_self reads
  have ends := P0.ends llvm (f.nextId + 1) (.int w₁) (.binary .add _ idx) List.mem_cons_self
  unfold createSum
  by_cases same : w₁ = w
  · simp only [if_pos same, List.append_nil]
    exact ⟨{ A with toNumbered := A.toNumbered.mono (by omega) }, ends⟩
  · simp only [if_neg same]
    exact ⟨A.next (by omega) llvm rfl (.cast .zext (.int w₁) _) nofun List.mem_cons_self fun v hv =>
      .inl (List.mem_singleton.mp hv),
      A.ends llvm _ _ _ List.mem_cons_self⟩

end

/-! ## What the new instructions read -/

section
variable {llvm : Llvm} {f : Function} {N : Block} {before after : List Inst} {I : Inst}

theorem definition_some {v : Value} {i : Inst} (found : definition f v = some i) :
    v = .inst i.id ∧ ∃ B ∈ f.blocks, ∃ pre post, B.body = pre ++ i :: post := by
  cases v with
  | inst d =>
    have member := List.mem_of_find?_eq_some found
    have same : i.id = d := by simpa using List.find?_some found
    obtain ⟨B, hB, hi⟩ := List.mem_flatMap.mp member
    obtain ⟨pre, post, split⟩ := List.append_of_mem hi
    exact ⟨congrArg Value.inst same.symm, B, hB, pre, post, split⟩
  | arg _ => cases found
  | const _ => cases found

section
variable (ssa : Ssa f) (hN : N ∈ f.blocks) (split : N.body = before ++ I :: after)
include ssa hN split

theorem ready_definition {v : Value} (ready : Ready f N before v)
    {j : Inst} (found : definition f v = some j) {u : Value} (operand : u ∈ j.op.operands) :
    Ready f N before u := by
  obtain ⟨rfl, A, hA, pre, post, split'⟩ := definition_some found
  exact ready.through ssa hN split hA split' operand

theorem ready_ptrToIntOperand {v p : Value} (ready : Ready f N before v)
    (found : ptrToIntOperand f v = some p) : Ready f N before p := by
  unfold ptrToIntOperand at found
  cases defined : definition f v with
  | none =>
    rw [defined] at found
    cases found
  | some j =>
    rw [defined, Option.map_some] at found
    split at found
    · cases found
      rename_i isCast
      refine ready_definition ssa hN split ready defined ?_
      rw [Option.some.inj isCast]
      exact List.mem_singleton_self _
    · cases found

theorem ready_matchAdd {lhs rhs : Value} (hlhs : Ready f N before lhs)
    (hrhs : Ready f N before rhs) {x : Value × Value} (found : matchAdd llvm f lhs rhs = some x) :
    Ready f N before x.1 ∧ Ready f N before x.2 := by
  unfold matchAdd at found
  obtain ⟨found, -⟩ := Option.filter_eq_some_iff.mp found
  cases left : ptrToIntOperand f lhs with
  | some p =>
    rw [left] at found
    cases found
    exact ⟨ready_ptrToIntOperand ssa hN split hlhs left, hrhs⟩
  | none =>
    rw [left] at found
    obtain ⟨p, right, rfl⟩ := Option.map_eq_some_iff.mp found
    exact ⟨ready_ptrToIntOperand ssa hN split hrhs right, hlhs⟩

end

/-! Indices. -/

/-- New instructions read what is there, and so do the values. -/
structure Narrowed (P : Value → Prop) (lo hi : Nat) (vs : List Value) (news : List Inst) :
    Prop extends Numbered lo hi news where
  reads : ∀ j ∈ news, ∀ v ∈ j.op.operands, P v
  indices : ∀ v ∈ vs, (∃ d ∈ news.map Inst.id, v = .inst d) ∨ P v

theorem narrowed_same {P : Value → Prop} (id : Nat) {v : Value} (there : P v) :
    Narrowed P id (id + 1) [v] [] where
  toNumbered := numbered_nil id (id + 1)
  reads := nofun
  indices := fun _ hu => .inr (List.mem_singleton.mp hu ▸ there)

theorem Narrowed.append {P : Value → Prop} {lo mid hi : Nat}
    {us vs : List Value} {first second : List Inst} (one : Narrowed P lo mid us first)
    (two : Narrowed P mid hi vs second) (le : lo ≤ mid) (le' : mid ≤ hi) :
    Narrowed P lo hi (us ++ vs) (first ++ second) where
  toNumbered := one.toNumbered.append two.toNumbered le le'
  reads := fun j hj => (List.mem_append.mp hj).elim (one.reads j) (two.reads j)
  indices := by
    intro v hv
    rw [List.map_append]
    rcases List.mem_append.mp hv with inFirst | inSecond
    · refine (one.indices v inFirst).imp_left ?_
      rintro ⟨d, hd, rfl⟩
      exact ⟨d, List.mem_append_left _ hd, rfl⟩
    · refine (two.indices v inSecond).imp_left ?_
      rintro ⟨d, hd, rfl⟩
      exact ⟨d, List.mem_append_right _ hd, rfl⟩

theorem create_cast_narrowed (id w : Nat) (op : CastOp) (src : Ty) {v : Value}
    (ready : Ready f N before v) :
    Narrowed (Ready f N before) id (id + 1) [(create llvm id (.int w) (.cast op src v)).1]
      (create llvm id (.int w) (.cast op src v)).2 := by
  have reads : (Op.cast op src v).operands ≠ [] := List.cons_ne_nil _ _
  rcases create_cases llvm id (.int w) reads with ⟨c, eq, -⟩ | ⟨eq, -⟩
  · rw [eq]
    exact narrowed_same id (ready_const c)
  · rw [eq]
    refine ⟨numbered_single id rfl nofun, ?_, ?_⟩
    · intro j hj u hu
      rw [List.mem_singleton.mp hj] at hu
      rw [List.mem_singleton.mp hu]
      exact ready
    · intro u hu
      exact .inl ⟨id, List.mem_singleton_self _, List.mem_singleton.mp hu⟩

theorem resize_narrowed (id : Nat) {v : Value} (ready : Ready f N before v) :
    Narrowed (Ready f N before) id (id + 1) [(resize llvm f id v).1] (resize llvm f id v).2 := by
  unfold resize
  split_ifs
  · exact create_cast_narrowed id 32 .zext _ ready
  · exact narrowed_same id ready
  · exact create_cast_narrowed id 32 .trunc _ ready

section
variable (ssa : Ssa f) (hN : N ∈ f.blocks) (split : N.body = before ++ I :: after)
include ssa hN split

theorem narrowIndex_narrowed (llvm : Llvm) (id : Nat) {v : Value} (ready : Ready f N before v) :
    Narrowed (Ready f N before) id (id + 1) [(narrowIndex llvm f id v).1]
      (narrowIndex llvm f id v).2 := by
  unfold narrowIndex
  split
  · exact narrowed_same id ready
  · exact narrowed_same id ready
  · exact narrowed_same id ready
  · rename_i isCast _
    obtain ⟨j, defined, same⟩ := Option.map_eq_some_iff.mp isCast
    refine resize_narrowed id (ready_definition ssa hN split ready defined ?_)
    rw [same]
    exact List.mem_singleton_self _
  · exact resize_narrowed id ready

theorem narrowIndices_narrowed (llvm : Llvm) (vs : List Value) (id : Nat)
    (ready : ∀ v ∈ vs, Ready f N before v) :
    Narrowed (Ready f N before) id (id + vs.length) (narrowIndices llvm f id vs).1
      (narrowIndices llvm f id vs).2 := by
  induction vs generalizing id with
  | nil => exact ⟨numbered_nil _ _, nofun, nofun⟩
  | cons v vs ih =>
    have first := narrowIndex_narrowed ssa hN split llvm id (ready v List.mem_cons_self)
    have rest := ih (id + 1) fun u hu => ready u (List.mem_cons_of_mem v hu)
    have both := first.append rest (by omega) (by omega)
    rw [show id + (v :: vs).length = id + 1 + vs.length by rw [List.length_cons]; omega]
    exact both

end

end

/-! ## One step -/

section
variable {llvm : Llvm} {f : Function}

/-- What an instruction is when something is done about it. -/
inductive Matched (llvm : Llvm) (f : Function) (i : Inst) : Action → Prop
  | add {w w₁ : Nat} {lhs rhs : Value} {x : Value × Value} (isAdd : i.op = .binary .add lhs rhs)
      (found : matchAdd llvm f lhs rhs = some x) (ty : typeOf llvm f x.2 = .int w₁) :
      Matched llvm f i (.add w w₁ x.1 x.2)
  | narrow {base : Value} {indices : List Value} (isGep : i.op = .getElementPtr base indices) :
      Matched llvm f i (.narrow indices)
  | compare {w w₁ : Nat} {pred : Predicate} {lhs : Value} {rhs : Const}
      (isCmp : i.op = .icmp pred lhs (.const (.castExpr .intToPtr rhs)))
      (ty : typeOf llvm f (.const rhs) = .int w₁) : Matched llvm f i (.compare w pred lhs rhs)
  | ptrToInt {w w₁ : Nat} {v : Value} {x : Value × Value} (found : matchAddress llvm f v = some x) :
      Matched llvm f i (.ptrToInt w w₁ x.1 x.2)

theorem matched_of_action {i : Inst} {a : Action} (found : action llvm f i = some a) :
    Matched llvm f i a := by
  unfold action at found
  split at found
  · rename_i isAdd _
    obtain ⟨x, matched, found⟩ := Option.bind_eq_some_iff.mp found
    split at found
    · rename_i ty
      cases found
      exact .add isAdd matched ty
    · cases found
  · rename_i isGep
    cases found
    exact .narrow isGep
  · rename_i isCmp _
    split at found
    · rename_i ty
      cases found
      exact .compare isCmp ty
    · cases found
  · obtain ⟨x, matched, found⟩ := Option.bind_eq_some_iff.mp found
    split at found
    · cases found
      exact .ptrToInt matched
    · cases found
  · cases found

theorem matchAddress_used {v : Value} {x : Value × Value} (found : matchAddress llvm f v = some x) :
    (∃ B ∈ f.blocks, x.1 ∈ B.uses) ∧ ∃ B ∈ f.blocks, x.2 ∈ B.uses := by
  unfold matchAddress at found
  split at found
  · rename_i defined
    split_ifs at found
    cases found
    obtain ⟨-, B, hB, pre, post, split⟩ := definition_some defined
    exact ⟨⟨B, hB, mem_uses_of_operand split List.mem_cons_self⟩,
      ⟨B, hB, mem_uses_of_operand split (List.mem_cons_of_mem _ (List.mem_singleton_self _))⟩⟩
  · cases found

/-! What `createSum` reads. -/

theorem isConst_create (id : Nat) (ty : Ty) (op : Op Value) (reads : op.operands ≠ []) :
    isConst (create llvm id ty op).1 = op.operands.all isConst := by
  rcases create_cases llvm id ty reads with ⟨c, eq, all⟩ | ⟨eq, some⟩
  · rw [eq, all]
    rfl
  · rw [eq, some]
    rfl

theorem mem_create (llvm : Llvm) (id : Nat) (ty : Ty) (op : Op Value) {v : Value}
    (reads : v ∈ op.operands) (notConst : isConst v = false) :
    ⟨id, ty, op⟩ ∈ (create llvm id ty op).2 := by
  rcases create_cases llvm id ty (List.ne_nil_of_mem reads) with ⟨c, eq, all⟩ | ⟨eq, -⟩
  · have const := List.all_eq_true.mp all v reads
    rw [notConst] at const
    cases const
  · rw [eq]
    exact List.mem_singleton_self _

theorem isConst_createSum (llvm : Llvm) (base idx : Value) (w w₁ : Nat) :
    isConst (createSum llvm f base idx w w₁).1 = (isConst base && isConst idx) := by
  have P0 : isConst (create llvm f.nextId (.int w₁) (.cast .ptrToInt .ptr base)).1 =
      isConst base := by
    rw [isConst_create _ _ (.cast .ptrToInt .ptr base) (List.cons_ne_nil _ _)]
    exact Bool.and_true _
  have A : isConst (create llvm (f.nextId + 1) (.int w₁)
      (.binary .add (create llvm f.nextId (.int w₁) (.cast .ptrToInt .ptr base)).1 idx)).1 =
        (isConst base && isConst idx) := by
    rw [isConst_create _ _ (.binary .add _ idx) (List.cons_ne_nil _ _)]
    show (isConst _ && (isConst idx && true)) = _
    rw [P0, Bool.and_true]
  unfold createSum
  by_cases same : w₁ = w
  · simp only [if_pos same]
    exact A
  · simp only [if_neg same]
    rw [isConst_create _ _ (.cast .zext (.int w₁) _) (List.cons_ne_nil _ _)]
    exact (Bool.and_true _).trans A

theorem createSum_reads (llvm : Llvm) {base idx : Value} {d : Nat}
    (operand : base = .inst d ∨ idx = .inst d) (w w₁ : Nat) :
    ∃ j ∈ (createSum llvm f base idx w w₁).2, .inst d ∈ j.op.operands := by
  rcases operand with rfl | rfl
  · have member :=
      mem_create llvm f.nextId (.int w₁) (.cast .ptrToInt .ptr (.inst d)) List.mem_cons_self rfl
    exact ⟨_, List.mem_append_left _ (List.mem_append_left _ member), List.mem_cons_self⟩
  · have member := mem_create llvm (f.nextId + 1) (.int w₁)
      (.binary .add (create llvm f.nextId (.int w₁) (.cast .ptrToInt .ptr base)).1 (.inst d))
      (List.mem_cons_of_mem _ (List.mem_singleton_self _)) rfl
    exact ⟨_, List.mem_append_left _ (List.mem_append_right _ member),
      List.mem_cons_of_mem _ (List.mem_singleton_self _)⟩

theorem createSum_reads_only {base idx : Value} {w w₁ d : Nat} (old : d < f.nextId)
    {j : Inst} (hj : j ∈ (createSum llvm f base idx w w₁).2) (operand : .inst d ∈ j.op.operands) :
    base = .inst d ∨ idx = .inst d := by
  have built :=
    (createSum_built llvm (P := fun v => base = v ∨ idx = v) (f := f) (.inr (.inr (.inl rfl)))
    (.inr (.inr (.inr rfl))) w w₁).1
  obtain ⟨first, last, split⟩ := List.append_of_mem hj
  rcases built.chain first j last split _ operand with ⟨c, eq⟩ | ⟨d', hd, eq⟩ | there
  · cases eq
  · cases eq
    obtain ⟨k, hk, rfl⟩ := List.mem_map.mp hd
    have above := (built.ids k (by rw [split]; exact List.mem_append_left _ hk)).1
    omega
  · exact there

/-- The place where the builder stands is behind the base and the index and in front of all uses of
the `ptrtoint`. -/
structure WellPlaced (f : Function) (point : Option Nat) (n : Nat) (base idx : Value) : Prop where
  inside : Used f (some n) n → Inside f point
  fed : ∀ Q ∈ f.blocks, Reachable f Q.label → ∀ pre i post, Q.body = pre ++ i :: post →
    point = some i.id →
    ∀ d, base = .inst d ∨ idx = .inst d → d ≠ n ∧ Seen f d Q (pre.map Inst.id)
  front : ∀ q, point = some q → InFront f q (some n) n

theorem placed_createSum_iff (wf : f.WellFormed)
    {base idx : Value} (hbase : ∃ B ∈ f.blocks, base ∈ B.uses) (hidx : ∃ B ∈ f.blocks, idx ∈ B.uses)
    (point : Option Nat) (n w w₁ : Nat) :
    Placed f point (createSum llvm f base idx w w₁).2 (some n) n
      (createSum llvm f base idx w w₁).1 ↔
      (isConst base = true ∧ isConst idx = true) ∨ WellPlaced f point n base idx := by
  have ends :=
    (createSum_built llvm (P := fun v => base = v ∨ idx = v) (f := f) (.inr (.inr (.inl rfl)))
    (.inr (.inr (.inr rfl))) w w₁).2
  have const := isConst_createSum (f := f) llvm base idx w w₁
  constructor
  · intro placed
    by_cases both : isConst base = true ∧ isConst idx = true
    · exact .inl both
    · obtain ⟨a, isInst⟩ : ∃ a, (createSum llvm f base idx w w₁).1 = .inst a := by
        refine ends_inst ends (const.trans ?_)
        exact Bool.eq_false_iff.mpr fun all => both (Bool.and_eq_true_iff.mp all)
      refine .inr ⟨placed.inside a isInst, ?_, placed.front a isInst⟩
      intro Q hQ reach pre i post split isPoint d operand
      obtain ⟨j, hj, reads⟩ := createSum_reads (f := f) llvm operand w w₁
      refine placed.fed Q hQ reach pre i post split isPoint j hj d reads ?_
      rcases operand with rfl | rfl
      · obtain ⟨B, hB, used⟩ := hbase
        exact wf.uses_lt hB used
      · obtain ⟨B, hB, used⟩ := hidx
        exact wf.uses_lt hB used
  · rintro (⟨constBase, constIdx⟩ | placed)
    · rw [constBase, constIdx] at const
      rw [ends_empty ends const]
      refine ⟨fun a isInst => ?_, fun _ _ _ _ _ _ _ _ _ hj => absurd hj List.not_mem_nil,
        fun a isInst => ?_⟩
      all_goals
        rw [isInst] at const
        cases const
    · refine ⟨fun _ _ => placed.inside, ?_, fun _ _ => placed.front⟩
      intro Q hQ reach pre i post split isPoint j hj d operand old
      exact placed.fed Q hQ reach pre i post split isPoint d (createSum_reads_only old hj operand)

/-- Where the new instructions of a rewrite have to stand. -/
def Action.Placed (st : State) (n : Nat) : Action → Prop
  | .ptrToInt _ _ base idx =>
      (isConst base = true ∧ isConst idx = true) ∨ WellPlaced st.f st.point n base idx
  | _ => True

theorem perform_ssa_iff {st : State} (ssa : Ssa st.f) {n : Nat} {a : Action}
    (found : actionAt llvm st n = some a) :
    Ssa (perform llvm st n a).f ↔ a.Placed st n := by
  obtain ⟨I, defined, acted⟩ := Option.bind_eq_some_iff.mp found
  obtain ⟨same, N, hN, before, after, split⟩ := definition_some defined
  cases same
  have hI : I ∈ N.body := split ▸ List.mem_append_right _ List.mem_cons_self
  have operand : ∀ {v : Value}, v ∈ I.op.operands → Ready st.f N before v :=
    Ready.operand ssa hN split
  cases matched_of_action acted with
  | @add w w₁ lhs rhs x isAdd matched ty =>
    refine ⟨fun _ => trivial, fun _ => ?_⟩
    have left := operand (v := lhs) (by rw [isAdd]; exact List.mem_cons_self)
    have right :=
      operand (v := rhs) (by rw [isAdd]; exact List.mem_cons_of_mem _ (List.mem_singleton_self _))
    obtain ⟨hp, hidx⟩ := ready_matchAdd ssa hN split left right matched
    obtain ⟨built, ends⟩ := createAdd_built (f := st.f) llvm (.inr (.inr hp)) (.inr (.inr hidx)) w
    exact replace_self_ssa ssa hN split (built.fits _ _ _) ends built.chain
  | @narrow base indices isGep =>
    refine ⟨fun _ => trivial, fun _ => ?_⟩
    have narrowed :=
        narrowIndices_narrowed ssa hN split llvm indices st.f.nextId fun v hv => operand (by
      rw [isGep]
      exact List.mem_cons_of_mem _ hv)
    have reindexes :
        Reindexes st.f indices.length N before I (narrowIndices llvm st.f st.f.nextId indices).2
        (narrowIndices llvm st.f st.f.nextId indices).1 :=
      ⟨⟨narrowed.value, narrowed.store, narrowed.nodup, narrowed.ids⟩, narrowed.reads,
        narrowed.indices⟩
    exact reindexes.ssa hN split ssa
  | @compare w w₁ pred lhs rhs isCmp ty =>
    refine ⟨fun _ => trivial, fun _ => ?_⟩
    have left := operand (v := lhs) (by rw [isCmp]; exact List.mem_cons_self)
    obtain ⟨built, ends⟩ := createICmp_built (.inr (.inr left)) pred rhs w w₁ ty
    exact replace_self_ssa ssa hN split (built.fits _ _ _) ends built.chain
  | @ptrToInt w w₁ v x matched =>
    obtain ⟨hbase, hidx⟩ := matchAddress_used matched
    obtain ⟨built, ends⟩ :=
      createSum_built llvm (P := fun v => ∃ B ∈ st.f.blocks, v ∈ B.uses) (f := st.f)
      (.inr (.inr hbase)) (.inr (.inr hidx)) w w₁
    have old : I.id < st.f.nextId :=
      ssa.wf.fresh N hN _
        (List.mem_append_left _ (List.mem_append_right _ (List.mem_map_of_mem hI)))
    have replaces : Replaces st.f 3 st.point (createSum llvm st.f x.1 x.2 w w₁).2 (some I.id) I.id
        (createSum llvm st.f x.1 x.2 w w₁).1 :=
      ⟨built.fits _ _ _, ends, built.chain, old, fun _ eq => (Option.some.inj eq).symm⟩
    exact (replaces.ssa_iff_placed ssa).trans
      (placed_createSum_iff ssa.wf hbase hidx st.point I.id w w₁)

/-! What the rewrites read is older than what they create. -/

theorem ptrToIntOperand_used {v p : Value} (found : ptrToIntOperand f v = some p) :
    ∃ B ∈ f.blocks, p ∈ B.uses := by
  unfold ptrToIntOperand at found
  split at found
  · rename_i isCast
    obtain ⟨i, defined, op⟩ := Option.map_eq_some_iff.mp isCast
    cases found
    obtain ⟨-, B, hB, pre, post, split⟩ := definition_some defined
    refine ⟨B, hB, mem_uses_of_operand split ?_⟩
    rw [op]
    exact List.mem_singleton_self _
  · cases found

/-- The pointer of an addition is read by its `ptrtoint`. -/
theorem matchAdd_used {lhs rhs : Value} {x : Value × Value}
    (found : matchAdd llvm f lhs rhs = some x) (used : ∀ v ∈ [lhs, rhs], ∃ B ∈ f.blocks, v ∈ B.uses) :
    (∃ B ∈ f.blocks, x.1 ∈ B.uses) ∧ ∃ B ∈ f.blocks, x.2 ∈ B.uses := by
  unfold matchAdd at found
  obtain ⟨found, -⟩ := Option.filter_eq_some_iff.mp found
  cases left : ptrToIntOperand f lhs with
  | some p =>
    rw [left] at found
    cases found
    exact ⟨ptrToIntOperand_used left, used rhs (by simp)⟩
  | none =>
    rw [left] at found
    obtain ⟨p, right, rfl⟩ := Option.map_eq_some_iff.mp found
    exact ⟨ptrToIntOperand_used right, used lhs (by simp)⟩

/-- The last of the new instructions is read by none of them. -/
theorem chain_last_unread {P : Value → Prop} {lo : Nat} {front : List Inst} {j : Inst}
    (chain : Chain P (front ++ [j])) (nodup : ((front ++ [j]).map Inst.id).Nodup)
    (new : lo ≤ j.id) (old : ∀ d, P (.inst d) → d < lo) {k : Inst} (hk : k ∈ front ++ [j]) :
    .inst j.id ∉ k.op.operands := by
  intro reads
  obtain ⟨first, last, split⟩ := List.append_of_mem hk
  rcases chain first k last split _ reads with ⟨c, eq⟩ | ⟨d, hd, eq⟩ | there
  · cases eq
  · cases eq
    have inside : j ∈ k :: last := by
      have ends : (k :: last).getLast? = some j := by
        rw [← List.getLast?_append_of_ne_nil first (List.cons_ne_nil k last), ← split,
          List.getLast?_concat]
      exact List.mem_of_getLast? ends
    rw [split, List.map_append] at nodup
    exact (List.nodup_append.mp nodup).2.2 _ hd _ (List.mem_map_of_mem inside) rfl
  · have := old _ there
    omega

/-- Values can be given to new instructions one after another. -/
theorem exists_computed {P : Value → Prop} {lo : Nat} {news : List Inst} (value : Value → Nat)
    (nodup : (news.map Inst.id).Nodup) (new : ∀ j ∈ news, lo ≤ j.id) (chain : Chain P news)
    (old : ∀ d, P (.inst d) → d < lo) :
    ∃ value', Computed llvm f value' news ∧
      ∀ v, (∀ d, v = .inst d → d < lo) → value' v = value v := by
  induction news using List.reverseRecOn with
  | nil => exact ⟨value, nofun, fun _ _ => rfl⟩
  | append_singleton front j ih =>
    have newer : lo ≤ j.id := new j (List.mem_append_right _ (List.mem_singleton_self j))
    have nodup' := nodup
    have unread := fun k => chain_last_unread (k := k) chain nodup newer old
    have chain' : Chain P front := fun first k last split v hv =>
      chain first k (last ++ [j]) (by rw [split, List.append_assoc, List.cons_append]) v hv
    rw [List.map_append] at nodup'
    obtain ⟨distinct, -, apart⟩ := List.nodup_append.mp nodup'
    obtain ⟨value₁, computed, same⟩ :=
      ih distinct (fun k hk => new k (List.mem_append_left _ hk)) chain'
    classical
    let x := (compute (widthOf llvm f) value₁ j.ty j.op).getD 0
    have other : ∀ v, v ≠ .inst j.id → Function.update value₁ (.inst j.id) x v = value₁ v :=
      fun v ne => Function.update_of_ne ne _ _
    have results : ∀ k ∈ front ++ [j],
        compute (widthOf llvm f) (Function.update value₁ (.inst j.id) x) k.ty k.op =
          compute (widthOf llvm f) value₁ k.ty k.op := by
      intro k hk
      refine compute_congr (fun _ _ => rfl) fun v hv => other v ?_
      rintro rfl
      exact unread k hk hv
    refine ⟨Function.update value₁ (.inst j.id) x, fun k hk y result => ?_, fun v older => ?_⟩
    · rw [results k hk] at result
      rcases List.mem_append.mp hk with inFront | isLast
      · have ne : (.inst k.id : Value) ≠ .inst j.id := by
          intro eq
          exact apart _ (List.mem_map_of_mem inFront) _ (List.mem_singleton_self _)
            (Value.inst.inj eq)
        rw [other _ ne]
        exact computed k inFront y result
      · rw [List.mem_singleton.mp isLast] at result ⊢
        rw [Function.update_self]
        exact congrArg (fun z => z.getD 0) result
    · have ne : v ≠ .inst j.id := by
        intro eq
        have := older _ eq
        omega
      rw [other v ne]
      exact same v older

/-- What the new instructions compute decides whether the integer is kept. -/
theorem keepsValue_iff_exact {P : Value → Prop} {a : Action} {new : Value × List Inst} {hi : Nat}
    (created : a.created llvm f = some new) (built : Built P f.nextId hi new)
    (old : ∀ d, P (.inst d) → d < f.nextId)
    (operand : ∀ d, a.pointer = .inst d ∨ a.index.1 = .inst d → d < f.nextId)
    (means : a.Valid → ∀ value, a.Operands llvm f value → Computed llvm f value new.2 →
      (value new.1 = a.before (value a.pointer) (value a.index.1) ↔
        a.Fits (value a.pointer) (value a.index.1))) :
    a.KeepsValue llvm f ↔ a.Exact llvm f := by
  constructor
  · rintro ⟨valid, keeps⟩
    refine ⟨valid, fun value operands => ?_⟩
    obtain ⟨value', computed, same⟩ : ∃ value', Computed llvm f value' new.2 ∧
        ∀ v, (∀ d, v = .inst d → d < f.nextId) → value' v = value v :=
      exists_computed value built.nodup (fun j hj => (built.ids j hj).1) built.chain old
    have atPointer := same a.pointer fun d eq => operand d (.inl eq)
    have atIndex := same a.index.1 fun d eq => operand d (.inr eq)
    have operands' : a.Operands llvm f value' := by
      refine ⟨operands.reads.congr fun c => same _ nofun, ?_, ?_⟩
      · rw [atPointer]
        exact operands.address
      · rw [atIndex]
        exact operands.index
    have fits := (means valid value' operands' computed).mp
      (keeps new created value' operands' computed)
    rwa [atPointer, atIndex] at fits
  · rintro ⟨valid, fits⟩
    refine ⟨valid, fun new' created' value operands computed => ?_⟩
    cases created.symm.trans created'
    exact (means valid value operands computed).mpr (fits value operands)

/-- A rewrite keeps the integer exactly if the operands fit. -/
theorem keepsValue_iff {st : State} (ssa : Ssa st.f) {n : Nat} {a : Action}
    (found : actionAt llvm st n = some a) : a.KeepsValue llvm st.f ↔ a.Exact llvm st.f := by
  obtain ⟨I, defined, acted⟩ := Option.bind_eq_some_iff.mp found
  obtain ⟨same, N, hN, before, after, split⟩ := definition_some defined
  cases same
  have older : ∀ {u v : Value}, (∃ B ∈ st.f.blocks, u ∈ B.uses) → (∃ B ∈ st.f.blocks, v ∈ B.uses) →
      ∀ d, u = .inst d ∨ v = .inst d → d < st.f.nextId := by
    rintro u v ⟨A, hA, usesU⟩ ⟨B, hB, usesV⟩ d (rfl | rfl)
    · exact ssa.wf.uses_lt hA usesU
    · exact ssa.wf.uses_lt hB usesV
  cases matched_of_action acted with
  | @add w w₁ lhs rhs x isAdd matched ty =>
    obtain ⟨hp, hidx⟩ := matchAdd_used matched fun v hv =>
      ⟨N, hN, mem_uses_of_operand split (by rw [isAdd]; exact hv)⟩
    have built := (createAdd_built llvm (P := fun v => x.1 = v ∨ x.2 = v) (f := st.f)
      (.inr (.inr (.inl rfl))) (.inr (.inr (.inr rfl))) w).1
    refine keepsValue_iff_exact rfl built (older hp hidx) (older hp hidx) ?_
    rintro valid value operands computed
    have valid : w₁ = w := valid
    subst valid
    rw [value_createAdd operands.reads ty computed]
    exact address_eq_add_iff operands.address operands.index
  | narrow => exact ⟨fun _ => ⟨trivial, fun _ _ => trivial⟩, fun _ => ⟨trivial, nofun⟩⟩
  | compare => exact ⟨fun _ => ⟨trivial, fun _ _ => trivial⟩, fun _ => ⟨trivial, nofun⟩⟩
  | @ptrToInt w w₁ v x matched =>
    obtain ⟨hbase, hidx⟩ := matchAddress_used matched
    have built := (createSum_built llvm (P := fun v => x.1 = v ∨ x.2 = v) (f := st.f)
      (.inr (.inr (.inl rfl))) (.inr (.inr (.inr rfl))) w w₁).1
    refine keepsValue_iff_exact rfl built (older hbase hidx) (older hbase hidx) ?_
    rintro valid value operands computed
    rw [value_createSum operands.reads computed]
    exact add_eq_address_iff valid

end

/-! ## The whole walk -/

section
variable (llvm : Llvm)

/-- What the step at an instruction needs. -/
def Safe (st : State) (n : Nat) : Prop :=
  ∀ a, actionAt llvm st n = some a → a.Exact llvm st.f ∧ a.Placed st n

/-- The step leaves a function in static single assignment form, and every use reads the same
integer. -/
def Kept (st : State) (n : Nat) : Prop :=
  Ssa (visit llvm st n).f ∧ ∀ a, actionAt llvm st n = some a → a.KeepsValue llvm st.f

variable {llvm}

theorem visit_kept_iff {st : State} (ssa : Ssa st.f) (n : Nat) :
    Kept llvm st n ↔ Safe llvm st n := by
  cases found : actionAt llvm st n with
  | none =>
    have same : visit llvm st n = st := by rw [visit, found]
    refine ⟨fun _ a eq => ?_, fun _ => ⟨same.symm ▸ ssa, fun a eq => ?_⟩⟩
    all_goals
      rw [found] at eq
      cases eq
  | some a =>
    have step : visit llvm st n = perform llvm st n a := by rw [visit, found]
    have form := perform_ssa_iff ssa found
    constructor
    · rintro ⟨after, keeps⟩ a' eq
      cases found.symm.trans eq
      exact ⟨(keepsValue_iff ssa found).mp (keeps a found), form.mp (step ▸ after)⟩
    · intro safe
      obtain ⟨exactly, placed⟩ := safe a found
      refine ⟨step.symm ▸ form.mpr placed, fun a' eq => ?_⟩
      cases found.symm.trans eq
      exact (keepsValue_iff ssa found).mpr exactly

theorem walk_succ {f : Function} {k n : Nat} (atk : (order f)[k]? = some n) :
    walk llvm f (k + 1) = visit llvm (walk llvm f k) n := by
  unfold walk
  rw [List.take_add_one, atk, List.foldl_append]
  rfl

/-- The form of the function after some steps. -/
theorem walk_ssa {f : Function} (ssa : Ssa f) {k : Nat} (le : k ≤ (order f).length) (kept : ∀ j < k,
      ∀ n, (order f)[j]? = some n → Ssa (walk llvm f j).f → Kept llvm (walk llvm f j) n) :
    Ssa (walk llvm f k).f := by
  induction k with
  | zero => exact ssa
  | succ k ih =>
    have before := ih (by omega) fun j hj => kept j (by omega)
    have atk := List.getElem?_eq_getElem (Nat.lt_of_succ_le le)
    rw [walk_succ atk]
    exact (kept k (Nat.lt_succ_self k) _ atk before).1

end

/-! ## Two functions

The sum of 32 bits keeps a result of 32 bits. It does not keep one of 64 bits, and the index has
32 bits then, because the getelementptr was visited before. -/

/-- The value of a constant; only integers have one. -/
def constValue : Value → Nat
  | .const (.int bits n) => n % 2 ^ bits
  | _ => 0

def constWidth : Value → Nat
  | .const (.int bits _) => bits
  | _ => 0

/-- The builder computes with constants, and every getelementptr of the examples counts in bytes. -/
def byteAddresses : Llvm where
  fold := fun op ty => if op.operands.all isConst then
    let x := (compute constWidth constValue ty op).getD 0
    some (.int x x) else none
  sourceIsInt8 := fun _ => true
  isInt8Ptr := fun _ => true
  constTy := fun _ => .ptr
  folds := fun op _ _ => by split_ifs with all <;> simp [all]

theorem byteAddresses_reads (f : Function) : Reads byteAddresses f constValue where
  literal := fun _ _ => rfl
  folded := by
    intro op ty c x folded result
    obtain ⟨all, same⟩ := Option.ite_none_right_eq_some.mp folded
    cases same
    have widths : ∀ v ∈ op.operands, constWidth v = widthOf byteAddresses f v := by
      intro v hv
      have const := List.all_eq_true.mp all v hv
      cases v with
      | const c => cases c <;> rfl
      | inst d => cases const
      | arg i => cases const
    rw [compute_congr widths fun _ _ => rfl, result]
    exact Nat.mod_eq_of_lt Nat.lt_two_pow_self

/-- `ptrtoint (getelementptr i8, p, i)` for an index and a result of the given width. -/
def addressOf (w : Nat) : Function where
  args := [.ptr, .int w]
  blocks := [⟨0, [], [⟨0, .ptr, .getElementPtr (.arg 0) [.arg 1]⟩,
    ⟨1, .int w, .cast .ptrToInt .ptr (.inst 0)⟩], 2, .ret (some (.inst 1))⟩]
  nextId := 3

theorem addressOf_ssa (w : Nat) : Ssa (addressOf w) := (SsaChecks.ssa_of_checks rfl).1

/-- The builder stands at the getelementptr. -/
theorem addressOf_placed :
    WellPlaced (walk byteAddresses (addressOf 32) 1).f (walk byteAddresses (addressOf 32) 1).point 1
      (.arg 0) (.arg 1) := by
  have one : ∀ B ∈ (walk byteAddresses (addressOf 32) 1).f.blocks, B =
      ⟨0, [], [⟨0, .ptr, .getElementPtr (.arg 0) [.arg 1]⟩,
      ⟨1, .int 32, .cast .ptrToInt .ptr (.inst 0)⟩], 2, .ret (some (.inst 1))⟩ := fun B hB =>
        List.mem_singleton.mp hB
  refine ⟨fun _ => ⟨_, List.mem_singleton_self _, _, List.mem_cons_self, rfl⟩, ?_,
    fun q isPoint => ?_⟩
  · rintro Q - - pre i post - - d (eq | eq) <;> cases eq
  · cases isPoint
    constructor
    · intro B hB _ pre i post split _ reads
      have hi : i ∈ B.body := split ▸ List.mem_append_right pre List.mem_cons_self
      cases one B hB
      rcases List.mem_cons.mp hi with rfl | hi
      · rcases List.mem_cons.mp reads with eq | eq
        · cases eq
        · cases List.mem_singleton.mp eq
      · cases List.mem_singleton.mp hi
        cases List.mem_singleton.mp reads
    · intro B hB _ _
      cases one B hB
      exact .inr (.inl List.mem_cons_self)
    · intro B hB p hp
      cases one B hB
      cases hp

theorem addressOf_safe : ∀ k n, (order (addressOf 32))[k]? = some n →
    Safe byteAddresses (walk byteAddresses (addressOf 32) k) n := by
  intro k n atk a found
  match k, atk with
  | 0, rfl =>
    have narrows : actionAt byteAddresses (walk byteAddresses (addressOf 32) 0) 0 =
      some (.narrow [.arg 1]) := rfl
    cases narrows.symm.trans found
    exact ⟨⟨trivial, fun _ _ => trivial⟩, trivial⟩
  | 1, rfl =>
    have sums : actionAt byteAddresses (walk byteAddresses (addressOf 32) 1) 1 =
      some (.ptrToInt 32 32 (.arg 0) (.arg 1)) := rfl
    cases sums.symm.trans found
    refine ⟨(Action.exact_ptrToInt_iff ⟨_, byteAddresses_reads _⟩ rfl rfl ?_).mpr ?_,
      .inr addressOf_placed⟩
    · simp
    · exact .inl ⟨rfl, by decide⟩

end PointerLowering
