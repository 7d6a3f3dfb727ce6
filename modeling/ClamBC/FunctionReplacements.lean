import ClamBC.FunctionEdits

/-!
# Replacing instructions

All uses of an instruction read another value, for which new instructions stand somewhere in the
function. This keeps the static single assignment form if and only if the place is behind what the
new instructions read and in front of all uses. In front of the instruction itself that is so.
A getelementptr can also get other indices.
-/

namespace FunctionEdits

open Ir SsaForm

/-! ## Values that are there -/

section
variable {f : Function}

/-- An instruction stands at one place. -/
theorem split_unique (wf : f.WellFormed) {A B : Block} (hA : A ∈ f.blocks) (hB : B ∈ f.blocks)
    {pre post pre' post' : List Inst} {i j : Inst} (split : A.body = pre ++ i :: post)
    (split' : B.body = pre' ++ j :: post') (same : i.id = j.id) :
    A = B ∧ pre = pre' ∧ i = j := by
  obtain ⟨atk, earlier⟩ := getElem_of_split split
  obtain ⟨atm, earlier'⟩ := getElem_of_split split'
  obtain ⟨rfl, eq⟩ := index_unique wf hA hB atk atm same
  refine ⟨rfl, ?_,
    (wf.inst_unique hA hA (List.mem_of_getElem? atk) (List.mem_of_getElem? atm) same).2⟩
  rw [← earlier, ← earlier', eq]

/-- An instruction is not computed before it stands. -/
theorem not_seen_self (wf : f.WellFormed)
    {B : Block} (hB : B ∈ f.blocks) (reach : Reachable f B.label) {pre post : List Inst} {i : Inst}
    (split : B.body = pre ++ i :: post) : ¬ Seen f i.id B (pre.map Inst.id) := by
  obtain ⟨atk, earlier⟩ := getElem_of_split split
  intro seen
  rw [← earlier] at seen
  rcases ((available_iff wf hB).mpr seen).of_inst wf hB hB atk with ⟨-, lt⟩ | dom
  · omega
  · exact StrictDom.irrefl reach dom

variable {B : Block} {pre post : List Inst} {i : Inst}

/-- A value that can be read in front of an instruction: a constant, or one that is read somewhere
and has been computed here. -/
structure Ready (f : Function) (B : Block) (pre : List Inst) (v : Value) : Prop where
  used : (∃ c, v = .const c) ∨ ∃ A ∈ f.blocks, v ∈ A.uses
  seen : ∀ d, v = .inst d → Reachable f B.label → Seen f d B (pre.map Inst.id)

theorem ready_const (c : Const) : Ready f B pre (.const c) := ⟨.inl ⟨c, rfl⟩, nofun⟩

theorem mem_uses_of_operand (split : B.body = pre ++ i :: post) {v : Value}
    (operand : v ∈ i.op.operands) : v ∈ B.uses := by
  have hi : i ∈ B.body := split ▸ List.mem_append_right _ List.mem_cons_self
  exact List.mem_append_left _ (List.mem_append_right _ (List.mem_flatMap.mpr ⟨i, hi, operand⟩))

/-- The operands of an instruction can be read in front of it. -/
theorem Ready.operand (ssa : Ssa f) (hB : B ∈ f.blocks) (split : B.body = pre ++ i :: post)
    {v : Value} (operand : v ∈ i.op.operands) :
    Ready f B pre v := by
  refine ⟨.inr ⟨B, hB, mem_uses_of_operand split operand⟩, fun d eq reach => ?_⟩
  subst eq
  exact (ssa_iff.mp ssa).2.body B hB reach pre i post split d operand

/-- What an instruction reads can be read wherever the instruction can. -/
theorem Ready.through (ssa : Ssa f) (hB : B ∈ f.blocks) (split : B.body = pre ++ i :: post)
    {A : Block} (hA : A ∈ f.blocks) {pre' post' : List Inst} {j : Inst}
    (split' : A.body = pre' ++ j :: post') (ready : Ready f B pre (.inst j.id)) {v : Value}
    (operand : v ∈ j.op.operands) : Ready f B pre v := by
  refine ⟨.inr ⟨A, hA, mem_uses_of_operand split' operand⟩, fun d eq reach => ?_⟩
  subst eq
  have wf := ssa.wf
  obtain ⟨atk, earlier⟩ := getElem_of_split split
  obtain ⟨atm, earlier'⟩ := getElem_of_split split'
  have second := ready.seen j.id rfl reach
  rw [← earlier, ← available_iff wf hB] at second
  have reach' : Reachable f A.label := by
    rcases second.of_inst wf hB hA atm with ⟨rfl, -⟩ | dom
    · exact reach
    · exact dom.reachable reach
  have first := ssa.body A hA reach' _ j atm d operand
  have both := first.trans wf hB hA atm second
  rw [available_iff wf hB, earlier] at both
  exact both

/-- An instruction cannot be read in front of itself. -/
theorem Ready.other (wf : f.WellFormed) (hB : B ∈ f.blocks) (reach : Reachable f B.label)
    (split : B.body = pre ++ i :: post) {d : Nat} (ready : Ready f B pre (.inst d)) : d ≠ i.id := by
  rintro rfl
  exact not_seen_self wf hB reach split (ready.seen _ rfl reach)

end

/-! ## Replacing all uses of an instruction -/

def substitute (n : Nat) (V : Value) : Value → Value
  | .inst d => if d = n then V else .inst d
  | v => v

def substituteInst (n : Nat) (V : Value) (i : Inst) : Inst :=
  { i with op := i.op.map (substitute n V) }

/-- `V` is read in the place of the instruction `n`, also by the new instructions. -/
def Edit.replace (point : Option Nat) (news : List Inst) (erased : Option Nat) (n : Nat)
    (V : Value) : Edit where
  point := point
  news := news.map (substituteInst n V)
  erased := erased
  update := substituteInst n V
  value := substitute n V
  update_id := fun _ => rfl
  update_ty := fun _ => rfl
  update_store := fun i v a store => by
    have mapped : i.op.map (substitute n V) = .store v a := store
    cases op : i.op <;> rw [op] at mapped <;> cases mapped
    exact ⟨_, _, rfl⟩
  update_load := fun i b a load => by
    have mapped : i.op.map (substitute n V) = .load b a := load
    cases op : i.op <;> rw [op] at mapped <;> cases mapped
    exact ⟨_, _, rfl⟩

/-- New instructions that end in a value, or no new instructions and a constant. -/
inductive Ends : List Inst → Value → Prop
  | const (c : Const) : Ends [] (.const c)
  | inst (front : List Inst) (last : Inst) : Ends (front ++ [last]) (.inst last.id)

section
variable {f : Function} {point : Option Nat} {news : List Inst} {erased : Option Nat}
  {n count : Nat} {V : Value}

/-- A constant, the result of one of the instructions, or something else that is there. -/
def Given (P : Value → Prop) (news : List Inst) (v : Value) : Prop :=
  (∃ c, v = .const c) ∨ (∃ d ∈ news.map Inst.id, v = .inst d) ∨ P v

/-- The instructions read each other, in order, and what is there. -/
def Chain (P : Value → Prop) (news : List Inst) : Prop :=
  ∀ first j last, news = first ++ j :: last → ∀ v ∈ j.op.operands, Given P first v

/-- The instructions read what is read in the function. -/
def Grounded (f : Function) (news : List Inst) : Prop :=
  Chain (fun v => ∃ B ∈ f.blocks, v ∈ B.uses) news

/-- Something that stays reads the instruction. -/
inductive Used (f : Function) (erased : Option Nat) (n : Nat) : Prop
  | phi {B : Block} (hB : B ∈ f.blocks) {p : Phi} (hp : p ∈ B.phis) {l : Label}
      (entry : (.inst n, l) ∈ p.incoming)
  | body {B : Block} (hB : B ∈ f.blocks) {i : Inst} (hi : i ∈ B.body) (stays : erased ≠ some i.id)
      (reads : .inst n ∈ i.op.operands)
  | term {B : Block} (hB : B ∈ f.blocks) (reads : .inst n ∈ B.term.operands)

/-- The point is at an instruction of the function. -/
def Inside (f : Function) (point : Option Nat) : Prop :=
  ∃ Q ∈ f.blocks, ∃ i ∈ Q.body, point = some i.id

/-- The new instructions stand behind what they read. -/
def Fed (f : Function) (point : Option Nat) (news : List Inst) (n : Nat) : Prop :=
  ∀ Q ∈ f.blocks, Reachable f Q.label → ∀ pre i post, Q.body = pre ++ i :: post →
    point = some i.id →
    ∀ j ∈ news, ∀ d, .inst d ∈ j.op.operands → d < f.nextId → d ≠ n ∧ Seen f d Q (pre.map Inst.id)

/-- The point is in front of every use of the instruction. -/
structure InFront (f : Function) (q : Nat) (erased : Option Nat) (n : Nat) : Prop where
  body : ∀ B ∈ f.blocks, Reachable f B.label → ∀ pre i post, B.body = pre ++ i :: post →
    erased ≠ some i.id →
    .inst n ∈ i.op.operands → Seen f q B (pre.map Inst.id ++ [i.id])
  term : ∀ B ∈ f.blocks, Reachable f B.label → .inst n ∈ B.term.operands →
    Seen f q B (B.body.map Inst.id)
  phi : ∀ B ∈ f.blocks, ∀ p ∈ B.phis, ∀ A ∈ f.blocks, Reachable f A.label →
    (.inst n, A.label) ∈ p.incoming →
    Seen f q A (A.body.map Inst.id)

structure Placed (f : Function) (point : Option Nat) (news : List Inst) (erased : Option Nat)
    (n : Nat) (V : Value) : Prop where
  inside : ∀ a, V = .inst a → Used f erased n → Inside f point
  fed : Fed f point news n
  front : ∀ a, V = .inst a → ∀ q, point = some q → InFront f q erased n

theorem substitute_eq_inst {v : Value} {d : Nat} (eq : substitute n V v = .inst d) :
    (v = .inst n ∧ V = .inst d) ∨ (v = .inst d ∧ d ≠ n) := by
  cases v with
  | inst i =>
    by_cases same : i = n
    · subst same
      rw [substitute, if_pos rfl] at eq
      exact .inl ⟨rfl, eq⟩
    · rw [substitute, if_neg same] at eq
      cases eq
      exact .inr ⟨rfl, same⟩
  | arg i => cases eq
  | const c => cases eq

theorem substitute_inst_self : substitute n V (.inst n) = V := if_pos rfl

theorem substitute_inst_other {d : Nat} (other : d ≠ n) :
    substitute n V (.inst d) = .inst d := if_neg other

/-- The operands of the new instructions after the replacement. -/
theorem news_split {first' last' : List Inst} {j' : Inst}
    (split : news.map (substituteInst n V) = first' ++ j' :: last') :
    ∃ first j last, news = first ++ j :: last ∧ first' = first.map (substituteInst n V) ∧
      j' = substituteInst n V j := by
  obtain ⟨first, rest, rfl, eq, eq'⟩ := List.map_eq_append_iff.mp split
  obtain ⟨j, last, rfl, same, -⟩ := List.map_eq_cons_iff.mp eq'
  exact ⟨first, j, last, rfl, eq.symm, same.symm⟩

theorem map_substitute_ids (is : List Inst) :
    (is.map (substituteInst n V)).map Inst.id = is.map Inst.id := by
  rw [List.map_map]
  rfl

/-- The new instructions are numbered, end in the new value and read what is there. -/
structure Replaces (f : Function) (count : Nat) (point : Option Nat) (news : List Inst)
    (erased : Option Nat) (n : Nat) (V : Value) :
    Prop where
  fits : (Edit.replace point news erased n V).Fits count f
  ends : Ends news V
  grounded : Grounded f news
  old : n < f.nextId
  erases : ∀ d, erased = some d → d = n

section
variable (replaces : Replaces f count point news erased n V)
include replaces

theorem Replaces.stays {d : Nat} (other : d ≠ n) :
    (Edit.replace point news erased n V).erased ≠ some d := fun gone =>
  other (replaces.erases d gone)

theorem Replaces.new_id {a : Nat} (isInst : V = .inst a) :
    ∃ j ∈ (Edit.replace point news erased n V).news, j.id = a := by
  cases replaces.ends with
  | const c => cases isInst
  | inst front last =>
    cases isInst
    exact ⟨substituteInst n (.inst last.id) last,
      List.mem_map_of_mem (List.mem_append_right _ (List.mem_singleton_self _)), rfl⟩

theorem Replaces.noArg {v : Value} {i : Nat} (eq : substitute n V v = .arg i) : v = .arg i := by
  cases v with
  | inst d =>
    by_cases same : d = n
    · subst same
      rw [substitute_inst_self] at eq
      subst eq
      cases replaces.ends
    · rw [substitute_inst_other same] at eq
      cases eq
  | arg j => exact eq
  | const c => cases eq

/-- What a value that was read before has become is defined. -/
theorem Replaces.defined_use (wf : f.WellFormed) {B : Block} (hB : B ∈ f.blocks) {v : Value}
    (used : v ∈ B.uses) (inside : ∀ a, V = .inst a → v = .inst n → Inside f point) {d : Nat}
    (eq : substitute n V v = .inst d) :
    ∃ A ∈ f.blocks, ∃ ty, (d, ty) ∈ ((Edit.replace point news erased n V).block A).defs ∧
      ty.isVoid = false := by
  rcases substitute_eq_inst eq with ⟨rfl, isNew⟩ | ⟨rfl, other⟩
  · obtain ⟨Q, hQ, i, hi, isPoint⟩ := inside d isNew rfl
    obtain ⟨j, hj, rfl⟩ := replaces.new_id isNew
    exact ⟨Q, hQ, j.ty, Edit.defined_new hi isPoint hj, replaces.fits.value j hj⟩
  · obtain ⟨A, hA, ty, defined, value⟩ := wf.uses B hB d used
    exact ⟨A, hA, ty, Edit.defined_old defined (replaces.stays other), value⟩

/-- The values that are read after the replacement come from values that were read before, or they
are new. -/
theorem Replaces.use_cases {B : Block} (hB : B ∈ f.blocks) {v' : Value}
    (used : v' ∈ ((Edit.replace point news erased n V).block B).uses) :
    (∃ c, v' = .const c) ∨
    (∃ j ∈ (Edit.replace point news erased n V).news, v' = .inst j.id ∧
      ∃ i ∈ B.body, point = some i.id) ∨
    ∃ A ∈ f.blocks, ∃ v ∈ A.uses, v' = substitute n V v ∧
      (v = .inst n → Used f erased n ∨ Inside f point) := by
  rcases Edit.mem_uses.mp used with ⟨p, hp, w, l, entry, rfl⟩ | ⟨j, hj, operand⟩ | ⟨w, hw, rfl⟩
  · refine .inr (.inr ⟨B, hB, w, ?_, rfl, fun same => .inl (.phi hB hp (same ▸ entry))⟩)
    exact List.mem_append_left _
      (List.mem_append_left _ (List.mem_flatMap.mpr ⟨p, hp, List.mem_map.mpr ⟨_, entry, rfl⟩⟩))
  · rcases Edit.mem_body.mp hj with ⟨i, hi, stays, rfl⟩ | ⟨new, i, hi, isPoint⟩
    · have mapped : v' ∈ (i.op.map (substitute n V)).operands := operand
      rw [Op.operands_map] at mapped
      obtain ⟨v, hv, rfl⟩ := List.mem_map.mp mapped
      refine .inr (.inr ⟨B, hB, v, ?_, rfl, fun same => .inl (.body hB hi stays (same ▸ hv))⟩)
      exact List.mem_append_left _ (List.mem_append_right _ (List.mem_flatMap.mpr ⟨i, hi, hv⟩))
    · obtain ⟨j, member, rfl⟩ := List.mem_map.mp new
      obtain ⟨first, last, split⟩ := List.append_of_mem member
      have mapped : v' ∈ (j.op.map (substitute n V)).operands := operand
      rw [Op.operands_map] at mapped
      obtain ⟨v, hv, rfl⟩ := List.mem_map.mp mapped
      rcases replaces.grounded first j last split v hv with ⟨c, rfl⟩ | ⟨d, hd, rfl⟩
        | ⟨A, hA, usedBefore⟩
      · exact .inl ⟨c, rfl⟩
      · obtain ⟨k, hk, rfl⟩ := List.mem_map.mp hd
        have member : substituteInst n V k ∈ (Edit.replace point news erased n V).news := by
          refine List.mem_map_of_mem ?_
          rw [split]
          exact List.mem_append_left _ hk
        have isNew := (replaces.fits.new _ member).1
        have old := replaces.old
        refine .inr (.inl ⟨_, member, substitute_inst_other ?_, i, hi, isPoint⟩)
        rintro rfl
        exact absurd isNew (Nat.not_le.mpr old)
      · exact .inr (.inr ⟨A, hA, v, usedBefore, rfl, fun _ => .inr ⟨B, hB, i, hi, isPoint⟩⟩)
  · refine .inr
      (.inr ⟨B, hB, w, List.mem_append_right _ hw, rfl, fun same => .inl (.term hB (same ▸ hw))⟩)

theorem Replaces.wellFormed (wf : f.WellFormed)
    (inside : ∀ a, V = .inst a → Used f erased n → Inside f point) :
    ((Edit.replace point news erased n V).apply count f).WellFormed := by
  refine Edit.apply_wellFormed wf replaces.fits ?_ ?_
  · intro B hB d used
    rcases replaces.use_cases hB used with ⟨c, eq⟩ | ⟨j, hj, eq, i, hi, isPoint⟩
      | ⟨A, hA, v, hv, eq, readsN⟩
    · cases eq
    · cases eq
      exact ⟨B, hB, j.ty, Edit.defined_new hi isPoint hj, replaces.fits.value j hj⟩
    · refine replaces.defined_use wf hA hv (fun a isInst same => ?_) eq.symm
      rcases readsN same with usedN | here
      · exact inside a isInst usedN
      · exact here
  · intro B hB i used
    rcases replaces.use_cases hB used with ⟨c, eq⟩ | ⟨j, hj, eq, -⟩ | ⟨A, hA, v, hv, eq, -⟩
    · cases eq
    · cases eq
    · rw [replaces.noArg eq.symm] at hv
      exact wf.argUses A hA i hv

/-! The new value is read where the instruction was read. -/

/-- What an old instruction has become is found where it was found before. -/
theorem Replaces.seen_other {B : Block} {d : Nat}
    (old : d < f.nextId) (other : d ≠ n) {ids ids' : List Nat} (same : d ∈ ids' ↔ d ∈ ids) :
    Seen ((Edit.replace point news erased n V).apply count f) d
      ((Edit.replace point news erased n V).block B) ids' ↔ Seen f d B ids :=
  Edit.seen_old replaces.fits old (replaces.stays other) same

/-- A new instruction in the new body. -/
theorem Replaces.mem_pre_new {a : Nat} (isInst : V = .inst a) {is : List Inst}
    (fresh : ∀ d ∈ is.map Inst.id, d < f.nextId) {q : Nat} (isPoint : point = some q) :
    a ∈ ((Edit.replace point news erased n V).body is).map Inst.id ↔ q ∈ is.map Inst.id := by
  obtain ⟨j, hj, rfl⟩ := replaces.new_id isInst
  rw [Edit.mem_body_ids]
  constructor
  · rintro (⟨old, -⟩ | ⟨-, q', member, here⟩)
    · have := fresh _ old
      have := (replaces.fits.new j hj).1
      omega
    · cases isPoint.symm.trans here
      exact member
  · exact fun member => .inr ⟨List.mem_map_of_mem hj, q, member, isPoint⟩

theorem Replaces.mem_inFront_new {a : Nat} (isInst : V = .inst a) {q : Nat}
    (isPoint : point = some q) (i : Inst) :
    a ∈ ((Edit.replace point news erased n V).inFront i).map Inst.id ↔ q = i.id := by
  obtain ⟨j, hj, rfl⟩ := replaces.new_id isInst
  have here : (Edit.replace point news erased n V).point = some q := isPoint
  unfold Edit.inFront
  rw [here]
  split_ifs with same
  · exact ⟨fun _ => Option.some.inj same, fun _ => List.mem_map_of_mem hj⟩
  · refine ⟨fun member => ?_, fun eq => absurd (congrArg some eq) same⟩
    cases member

theorem Replaces.seen_value (wf : f.WellFormed) {B Q : Block} (hB : B ∈ f.blocks)
    (hQ : Q ∈ f.blocks) {i : Inst} (hi : i ∈ Q.body) (isPoint : point = some i.id) {a : Nat}
    (isInst : V = .inst a) {ids ids' : List Nat} (same : a ∈ ids' ↔ i.id ∈ ids) :
    Seen ((Edit.replace point news erased n V).apply count f) a
      ((Edit.replace point news erased n V).block B) ids' ↔
      Seen f i.id B ids := by
  obtain ⟨j, hj, rfl⟩ := replaces.new_id isInst
  exact Edit.seen_new wf replaces.fits hB hQ hi isPoint (List.mem_map_of_mem hj) same

/-- At the end of a block. -/
theorem Replaces.seen_end (wf : f.WellFormed) {B : Block} (hB : B ∈ f.blocks) {v : Value}
    {d : Nat} (eq : substitute n V v = .inst d) (value : ∀ a, V = .inst a → v = .inst n →
      ∃ Q ∈ f.blocks, ∃ i ∈ Q.body, point = some i.id ∧ Seen f i.id B (B.body.map Inst.id))
    (other : ∀ d, v = .inst d → d < f.nextId ∧ Seen f d B (B.body.map Inst.id)) :
    Seen ((Edit.replace point news erased n V).apply count f) d
      ((Edit.replace point news erased n V).block B)
      (((Edit.replace point news erased n V).body B.body).map Inst.id) := by
  rcases substitute_eq_inst eq with ⟨isN, isInst⟩ | ⟨isD, ne⟩
  · obtain ⟨Q, hQ, i, hi, isPoint, seen⟩ := value d isInst isN
    refine (replaces.seen_value wf hB hQ hi isPoint isInst
      (replaces.mem_pre_new isInst ?_ isPoint)).mpr seen
    exact fun d hd => wf.fresh _ hB d (List.mem_append_left _ (List.mem_append_right _ hd))
  · obtain ⟨old, seen⟩ := other d isD
    exact (replaces.seen_other old ne (Edit.mem_pre replaces.fits old (replaces.stays ne) _)).mpr
      seen

theorem Replaces.computes (ssa : Ssa f) (placed : Placed f point news erased n V) :
    (Edit.replace point news erased n V).Computes count f := by
  have wf := ssa.wf
  have reads := (ssa_iff.mp ssa).2
  have fresh : ∀ {B : Block}, B ∈ f.blocks → ∀ d ∈ B.body.map Inst.id, d < f.nextId :=
      fun hB d hd =>
    wf.fresh _ hB d (List.mem_append_left _ (List.mem_append_right _ hd))
  constructor
  case old =>
    intro B hB reach pre i post split stays d operand
    have mapped : Value.inst d ∈ (i.op.map (substitute n V)).operands := operand
    rw [Op.operands_map] at mapped
    obtain ⟨v, hv, eq⟩ := List.mem_map.mp mapped
    have hi : i ∈ B.body := split ▸ List.mem_append_right _ List.mem_cons_self
    have before : ∀ d ∈ pre.map Inst.id, d < f.nextId := fun d hd => fresh hB d (by
      rw [split, List.map_append]
      exact List.mem_append_left _ hd)
    rw [List.map_append]
    rcases substitute_eq_inst eq with ⟨rfl, isInst⟩ | ⟨rfl, other⟩
    · obtain ⟨Q, hQ, k, hk, isPoint⟩ := placed.inside d isInst (.body hB hi stays hv)
      refine (replaces.seen_value wf hB hQ hk isPoint isInst ?_).mpr
        ((placed.front d isInst k.id isPoint).body B hB reach pre i post split stays hv)
      rw [List.mem_append, List.mem_append, replaces.mem_pre_new isInst before isPoint,
        replaces.mem_inFront_new isInst isPoint,
        List.mem_singleton]
    · have seen := reads.body B hB reach pre i post split d hv
      have old := wf.uses_lt hB
        (List.mem_append_left _ (List.mem_append_right _ (List.mem_flatMap.mpr ⟨i, hi, hv⟩)))
      refine (replaces.seen_other old other ?_).mpr seen
      rw [List.mem_append, Edit.mem_pre replaces.fits old (replaces.stays other),
        or_iff_left (Edit.mem_inFront replaces.fits old i)]
  case new =>
    intro B hB reach pre i post split here first' j' last' news' d operand
    obtain ⟨first, j, last, newsSplit, rfl, rfl⟩ := news_split news'
    have mapped : Value.inst d ∈ (j.op.map (substitute n V)).operands := operand
    rw [Op.operands_map] at mapped
    obtain ⟨v, hv, eq⟩ := List.mem_map.mp mapped
    have member : j ∈ news := newsSplit ▸ List.mem_append_right _ List.mem_cons_self
    rw [List.map_append, map_substitute_ids]
    -- operands are earlier new instructions or old ones
    by_cases old : ∃ d₀, v = .inst d₀ ∧ d₀ < f.nextId
    · obtain ⟨d₀, rfl, lt⟩ := old
      obtain ⟨other, seen⟩ := placed.fed B hB reach pre i post split here j member d₀ hv lt
      rw [substitute_inst_other other] at eq
      cases eq
      refine (replaces.seen_other lt other ?_).mpr seen
      rw [List.mem_append, Edit.mem_pre replaces.fits lt (replaces.stays other)]
      refine or_iff_left fun inFirst => Edit.notNew replaces.fits lt ?_
      show d ∈ (news.map (substituteInst n V)).map Inst.id
      rw [map_substitute_ids, newsSplit, List.map_append]
      exact List.mem_append_left _ inFirst
    · rcases replaces.grounded first j last newsSplit v hv with ⟨c, rfl⟩ | ⟨d₀, hd₀, rfl⟩
        | ⟨A, hA, usedBefore⟩
      · cases eq
      · rcases substitute_eq_inst eq with ⟨same, -⟩ | ⟨same, -⟩
        · exact absurd ⟨n, same, replaces.old⟩ old
        · cases same
          exact .inr (.inl (List.mem_append_right _ hd₀))
      · rcases substitute_eq_inst eq with ⟨rfl, -⟩ | ⟨rfl, -⟩
        · exact absurd ⟨n, rfl, replaces.old⟩ old
        · exact absurd ⟨d, rfl, wf.uses_lt hA usedBefore⟩ old
  case term =>
    intro B hB reach v hv d eq
    refine replaces.seen_end wf hB eq (fun a isInst same => ?_) fun d' same => ?_
    · obtain ⟨Q, hQ, i, hi, isPoint⟩ := placed.inside a isInst (.term hB (same ▸ hv))
      exact ⟨Q, hQ, i, hi, isPoint,
        (placed.front a isInst i.id isPoint).term B hB reach (same ▸ hv)⟩
    · exact ⟨wf.uses_lt hB (List.mem_append_right _ (same ▸ hv)),
        reads.term B hB reach d' (same ▸ hv)⟩
  case phi =>
    intro B hB p hp A hA reach v entry d eq
    refine replaces.seen_end wf hA eq (fun a isInst same => ?_) fun d' same => ?_
    · obtain ⟨Q, hQ, i, hi, isPoint⟩ := placed.inside a isInst (.phi hB hp (same ▸ entry))
      exact ⟨Q, hQ, i, hi, isPoint,
        (placed.front a isInst i.id isPoint).phi B hB p hp A hA reach (same ▸ entry)⟩
    · refine ⟨wf.uses_lt hB ?_, reads.phi B hB p hp A hA reach d' (same ▸ entry)⟩
      exact List.mem_append_left _ (List.mem_append_left _
        (List.mem_flatMap.mpr ⟨p, hp, List.mem_map.mpr ⟨_, same ▸ entry, rfl⟩⟩))

/-! And it has to be placed so. -/

omit replaces in
theorem used_after {a : Nat} (isInst : V = .inst a) (used : Used f erased n) :
    ∃ B ∈ f.blocks, Value.inst a ∈ ((Edit.replace point news erased n V).block B).uses := by
  have self : substitute n V (.inst n) = .inst a := substitute_inst_self.trans isInst
  cases used with
  | @phi B hB p hp l entry =>
      exact ⟨B, hB, Edit.mem_uses.mpr (.inl ⟨p, hp, .inst n, l, entry, self.symm⟩)⟩
  | @body B hB i hi stays reads =>
    refine ⟨B, hB, Edit.mem_uses.mpr
      (.inr (.inl ⟨substituteInst n V i, Edit.mem_body.mpr (.inl ⟨i, hi, stays, rfl⟩), ?_⟩))⟩
    show Value.inst a ∈ (i.op.map (substitute n V)).operands
    rw [Op.operands_map]
    exact List.mem_map.mpr ⟨_, reads, self⟩
  | @term B hB reads => exact ⟨B, hB, Edit.mem_uses.mpr (.inr (.inr ⟨.inst n, reads, self.symm⟩))⟩

theorem Replaces.inside (wf : f.WellFormed)
    (after : ((Edit.replace point news erased n V).apply count f).WellFormed) {a : Nat}
    (isInst : V = .inst a) (used : Used f erased n) : Inside f point := by
  obtain ⟨B, hB, usedAfter⟩ := used_after isInst used
  obtain ⟨A', hA', ty, defined, -⟩ := after.uses _ (List.mem_map_of_mem hB) a usedAfter
  obtain ⟨A, hA, rfl⟩ := List.mem_map.mp hA'
  obtain ⟨j, hj, rfl⟩ := replaces.new_id isInst
  have isNew := (replaces.fits.new j hj).1
  have found := Edit.mem_block_ids (Function.mem_ids_of_def defined)
  rcases found with old | ⟨-, q, member, here⟩
  · have := wf.fresh A hA _ old
    omega
  · obtain ⟨i, hi, rfl⟩ := List.mem_map.mp member
    exact ⟨A, hA, i, hi, here⟩

/-- The last of the new instructions is not computed in front of one of them. -/
theorem Replaces.not_seen_value (wf : f.WellFormed)
    {Q : Block} (hQ : Q ∈ f.blocks) (reach : Reachable f Q.label) {pre post : List Inst} {i : Inst}
    (split : Q.body = pre ++ i :: post) (isPoint : point = some i.id) {first last : List Inst}
    {j : Inst} (newsSplit : news = first ++ j :: last) {a : Nat} (isInst : V = .inst a) :
    ¬ Seen ((Edit.replace point news erased n V).apply count f) a
      ((Edit.replace point news erased n V).block Q)
      (((Edit.replace point news erased n V).body pre ++ first).map Inst.id) := by
  have hi : i ∈ Q.body := split ▸ List.mem_append_right _ List.mem_cons_self
  have fresh : ∀ d ∈ pre.map Inst.id, d < f.nextId := fun d hd => wf.fresh Q hQ d (by
    refine List.mem_append_left _ (List.mem_append_right _ ?_)
    rw [split, List.map_append]
    exact List.mem_append_left _ hd)
  have notFirst : a ∉ first.map Inst.id := by
    have nodup : (news.map Inst.id).Nodup :=
      map_substitute_ids (n := n) (V := V) news ▸ replaces.fits.nodup
    cases replaces.ends with
    | const c => cases isInst
    | inst front final =>
      cases isInst
      intro inFirst
      obtain ⟨back, isLast⟩ : ∃ back, j :: last = back ++ [final] := by
        rcases List.eq_nil_or_concat (j :: last) with nil | ⟨back, final', eq⟩
        · cases nil
        · rw [List.concat_eq_append] at eq
          rw [eq, ← List.append_assoc] at newsSplit
          exact ⟨back, by rw [eq, (List.append_inj' newsSplit rfl).2]⟩
      rw [newsSplit, isLast, List.map_append, List.map_append] at nodup
      exact (List.nodup_append.mp nodup).2.2 final.id inFirst final.id
        (List.mem_append_right _ (List.mem_singleton_self _)) rfl
  intro seen
  refine not_seen_self wf hQ reach split
    ((replaces.seen_value wf hQ hQ hi isPoint isInst ?_).mp seen)
  rw [List.map_append, List.mem_append, or_iff_left notFirst]
  exact replaces.mem_pre_new isInst fresh isPoint

theorem Replaces.placed (wf : f.WellFormed)
    (after : Ssa ((Edit.replace point news erased n V).apply count f)) :
    Placed f point news erased n V := by
  obtain ⟨wf', reads⟩ := ssa_iff.mp after
  have computes := Edit.reads_apply_iff.mp reads
  have fresh : ∀ {B : Block}, B ∈ f.blocks → ∀ d ∈ B.body.map Inst.id, d < f.nextId :=
      fun hB d hd =>
    wf.fresh _ hB d (List.mem_append_left _ (List.mem_append_right _ hd))
  have inside : ∀ a, V = .inst a → Used f erased n → Inside f point :=
    fun a isInst used => replaces.inside wf wf' isInst used
  refine ⟨inside, ?_, ?_⟩
  · intro Q hQ reach pre i post split isPoint j hj d operand old
    obtain ⟨first, last, newsSplit⟩ := List.append_of_mem hj
    have newsSplit' : (Edit.replace point news erased n V).news =
        first.map (substituteInst n V) ++ substituteInst n V j ::
          last.map (substituteInst n V) := by
      show news.map (substituteInst n V) = _
      rw [newsSplit, List.map_append, List.map_cons]
    have seenAfter : ∀ d', substitute n V (.inst d) = .inst d' → _ := fun d' eq =>
      computes.new Q hQ reach pre i post split isPoint _ _ _ newsSplit' d' (by
        show Value.inst d' ∈ (j.op.map (substitute n V)).operands
        rw [Op.operands_map]
        exact List.mem_map.mpr ⟨_, operand, eq⟩)
    have other : d ≠ n := by
      rintro rfl
      obtain ⟨a, isInst⟩ : ∃ a, V = .inst a := by
        cases replaces.ends with
        | const c => cases hj
        | inst front final => exact ⟨_, rfl⟩
      have seen := seenAfter a (substitute_inst_self.trans isInst)
      rw [List.map_append, map_substitute_ids, ← List.map_append] at seen
      exact replaces.not_seen_value wf hQ reach split isPoint newsSplit isInst seen
    refine ⟨other,
      (replaces.seen_other old other ?_).mp (seenAfter d (substitute_inst_other other))⟩
    rw [List.map_append, map_substitute_ids, List.mem_append,
      Edit.mem_pre replaces.fits old (replaces.stays other)]
    refine or_iff_left fun inFirst => Edit.notNew replaces.fits old ?_
    show d ∈ (news.map (substituteInst n V)).map Inst.id
    rw [map_substitute_ids, newsSplit, List.map_append]
    exact List.mem_append_left _ inFirst
  · intro a isInst q isPoint
    have self : substitute n V (.inst n) = .inst a := substitute_inst_self.trans isInst
    have atPoint : Used f erased n → ∃ Q ∈ f.blocks, ∃ k ∈ Q.body, k.id = q := by
      intro used
      obtain ⟨Q, hQ, k, hk, here⟩ := inside a isInst used
      cases isPoint.symm.trans here
      exact ⟨Q, hQ, k, hk, rfl⟩
    constructor
    · intro B hB reach pre i post split stays operand
      have hi : i ∈ B.body := split ▸ List.mem_append_right _ List.mem_cons_self
      obtain ⟨Q, hQ, k, hk, rfl⟩ := atPoint (.body hB hi stays operand)
      refine (replaces.seen_value wf hB hQ hk isPoint isInst ?_).mp
        (computes.old B hB reach pre i post split stays a ?_)
      · have before : ∀ d ∈ pre.map Inst.id, d < f.nextId := fun d hd => fresh hB d (by
          rw [split, List.map_append]
          exact List.mem_append_left _ hd)
        rw [List.map_append, List.mem_append, List.mem_append,
          replaces.mem_pre_new isInst before isPoint,
          replaces.mem_inFront_new isInst isPoint, List.mem_singleton]
      · show Value.inst a ∈ (i.op.map (substitute n V)).operands
        rw [Op.operands_map]
        exact List.mem_map.mpr ⟨_, operand, self⟩
    · intro B hB reach operand
      obtain ⟨Q, hQ, k, hk, rfl⟩ := atPoint (.term hB operand)
      exact (replaces.seen_value wf hB hQ hk isPoint isInst
        (replaces.mem_pre_new isInst (fresh hB) isPoint)).mp
        (computes.term B hB reach _ operand a self)
    · intro B hB p hp A hA reach entry
      obtain ⟨Q, hQ, k, hk, rfl⟩ := atPoint (.phi hB hp entry)
      exact (replaces.seen_value wf hA hQ hk isPoint isInst
        (replaces.mem_pre_new isInst (fresh hA) isPoint)).mp
        (computes.phi B hB p hp A hA reach _ entry a self)

/-- The function stays in the form if and only if the point is right. -/
theorem Replaces.ssa_iff_placed (ssa : Ssa f) :
    Ssa ((Edit.replace point news erased n V).apply count f) ↔ Placed f point news erased n V := by
  constructor
  · exact replaces.placed ssa.wf
  · intro placed
    exact ssa_iff.mpr ⟨replaces.wellFormed ssa.wf placed.inside,
      Edit.reads_apply_iff.mpr (replaces.computes ssa placed)⟩

end

end

/-! ## Instructions in front of the one they replace -/

section
variable {f : Function} {N : Block} {before after : List Inst} {I : Inst} {news : List Inst}
  {V : Value} {count : Nat}

theorem Chain.imp {P Q : Value → Prop} (imp : ∀ v, P v → (∃ c, v = .const c) ∨ Q v)
    (chain : Chain P news) : Chain Q news := by
  intro first j last split v operand
  rcases chain first j last split v operand with const | new | there
  · exact .inl const
  · exact .inr (.inl new)
  · rcases imp v there with const | there
    · exact .inl const
    · exact .inr (.inr there)

theorem Chain.grounded (chain : Chain (Ready f N before) news) : Grounded f news :=
  chain.imp fun _ ready => ready.used

/-- The point is the instruction itself, so what it reads is there and its uses are behind it. -/
theorem placed_self (ssa : Ssa f) (hN : N ∈ f.blocks) (split : N.body = before ++ I :: after)
    (fits : (Edit.replace (some I.id) news none I.id V).Fits count f)
    (chain : Chain (Ready f N before) news) :
    Placed f (some I.id) news none I.id V := by
  have reads := (ssa_iff.mp ssa).2
  have hI : I ∈ N.body := split ▸ List.mem_append_right _ List.mem_cons_self
  constructor
  case inside => exact fun _ _ _ => ⟨N, hN, I, hI, rfl⟩
  case fed =>
    intro Q hQ reach pre i post split' isPoint j hj d operand old
    obtain ⟨rfl, rfl, rfl⟩ := split_unique ssa.wf hQ hN split' split (Option.some.inj isPoint).symm
    obtain ⟨first, last, newsSplit⟩ := List.append_of_mem hj
    rcases chain first j last newsSplit _ operand with ⟨c, eq⟩ | ⟨d', hd, eq⟩ | ready
    · cases eq
    · cases eq
      refine absurd ?_ (Edit.notNew fits old)
      show d ∈ (news.map (substituteInst i.id V)).map Inst.id
      rw [map_substitute_ids, newsSplit, List.map_append]
      exact List.mem_append_left _ hd
    · exact ⟨ready.other ssa.wf hQ reach split, ready.seen d rfl reach⟩
  case front =>
    intro a _ q isPoint
    cases isPoint
    constructor
    · intro B hB reach pre i post split' _ operand
      exact (reads.body B hB reach pre i post split' _ operand).mono fun d hd =>
        List.mem_append_left _ hd
    · exact fun B hB reach operand => reads.term B hB reach _ operand
    · exact fun B hB p hp A hA reach entry => reads.phi B hB p hp A hA reach _ entry

theorem replace_self_ssa (ssa : Ssa f) (hN : N ∈ f.blocks) (split : N.body = before ++ I :: after)
    (fits : (Edit.replace (some I.id) news none I.id V).Fits count f) (ends : Ends news V)
    (chain : Chain (Ready f N before) news) :
    Ssa ((Edit.replace (some I.id) news none I.id V).apply count f) := by
  have hI : I ∈ N.body := split ▸ List.mem_append_right _ List.mem_cons_self
  have old : I.id < f.nextId :=
    ssa.wf.fresh N hN _ (List.mem_append_left _ (List.mem_append_right _ (List.mem_map_of_mem hI)))
  have replaces : Replaces f count (some I.id) news none I.id V :=
    ⟨fits, ends, chain.grounded, old, nofun⟩
  exact (replaces.ssa_iff_placed ssa).mpr (placed_self ssa hN split fits chain)

end

/-! ## Other indices for an element address -/

def setIndices (indices : List Value) : Op Value → Op Value
  | .getElementPtr base _ => .getElementPtr base indices
  | op => op

/-- The getelementptr `n` gets other indices, for which new instructions stand in front of it. -/
def Edit.reindex (n : Nat) (news : List Inst) (indices : List Value) : Edit where
  point := some n
  news := news
  erased := none
  update := fun i => if i.id = n then { i with op := setIndices indices i.op } else i
  value := id
  update_id := fun i => by split_ifs <;> rfl
  update_ty := fun i => by split_ifs <;> rfl
  update_store := fun i v a store => by
    split_ifs at store
    · cases op : i.op <;> simp only [op, setIndices, reduceCtorEq] at store
      exact ⟨_, _, rfl⟩
    · exact ⟨v, a, store⟩
  update_load := fun i b a load => by
    split_ifs at load
    · cases op : i.op <;> simp only [op, setIndices, reduceCtorEq] at load
      exact ⟨_, _, rfl⟩
    · exact ⟨b, a, load⟩

section
variable {f : Function} {N : Block} {before after : List Inst} {I : Inst} {news : List Inst}
  {indices : List Value} {count : Nat}

/-- The new instructions and the new indices read what can be read in front of the getelementptr. -/
structure Reindexes (f : Function) (count : Nat) (N : Block) (before : List Inst) (I : Inst)
    (news : List Inst) (indices : List Value) :
    Prop where
  fits : (Edit.reindex I.id news indices).Fits count f
  reads : ∀ j ∈ news, ∀ v ∈ j.op.operands, Ready f N before v
  indexReads : ∀ v ∈ indices, (∃ d ∈ news.map Inst.id, v = .inst d) ∨ Ready f N before v

theorem reindex_operand {i : Inst} {n : Nat} {v : Value}
    (operand : v ∈ ((Edit.reindex n news indices).update i).op.operands) :
    v ∈ i.op.operands ∨ (i.id = n ∧ v ∈ indices) := by
  by_cases here : i.id = n
  · have eq : (Edit.reindex n news indices).update i =
      { i with op := setIndices indices i.op } := if_pos here
    rw [eq] at operand
    cases op : i.op with
    | getElementPtr base old =>
      rw [op] at operand
      rcases List.mem_cons.mp operand with rfl | inside
      · exact .inl List.mem_cons_self
      · exact .inr ⟨here, inside⟩
    | load _ _ | store _ _ | alloca _ | icmp _ _ _ | binary _ _ _ | select _ _ _ | cast _ _ _
        | call _ _ _ | dbg | other _ _ =>
      rw [op] at operand
      exact .inl operand
  · have eq : (Edit.reindex n news indices).update i = i := if_neg here
    rw [eq] at operand
    exact .inl operand

section
variable (reindexes : Reindexes f count N before I news indices) (hN : N ∈ f.blocks)
  (split : N.body = before ++ I :: after)
include reindexes hN split

theorem Reindexes.wellFormed (wf : f.WellFormed) :
    ((Edit.reindex I.id news indices).apply count f).WellFormed := by
  have hI : I ∈ N.body := split ▸ List.mem_append_right _ List.mem_cons_self
  -- every value that is read is new, a constant or one that was read before
  have uses : ∀ B ∈ f.blocks, ∀ v ∈ ((Edit.reindex I.id news indices).block B).uses,
      (∃ j ∈ news, v = .inst j.id) ∨ (∃ c, v = .const c) ∨ ∃ A ∈ f.blocks, v ∈ A.uses := by
    intro B hB v used
    rcases Edit.mem_uses.mp used with ⟨p, hp, w, l, entry, rfl⟩ | ⟨j, hj, operand⟩ | ⟨w, hw, rfl⟩
    · refine .inr (.inr ⟨B, hB, List.mem_append_left _ (List.mem_append_left _ ?_)⟩)
      exact List.mem_flatMap.mpr ⟨p, hp, List.mem_map.mpr ⟨_, entry, rfl⟩⟩
    · rcases Edit.mem_body.mp hj with ⟨i, hi, -, rfl⟩ | ⟨new, -⟩
      · rcases reindex_operand operand with old | ⟨-, index⟩
        · refine .inr (.inr ⟨B, hB, List.mem_append_left _ (List.mem_append_right _ ?_)⟩)
          exact List.mem_flatMap.mpr ⟨i, hi, old⟩
        · rcases reindexes.indexReads v index with ⟨d, hd, rfl⟩ | ready
          · obtain ⟨j, hj, rfl⟩ := List.mem_map.mp hd
            exact .inl ⟨j, hj, rfl⟩
          · exact .inr ready.used
      · exact .inr (reindexes.reads j new v operand).used
    · exact .inr (.inr ⟨B, hB, List.mem_append_right _ hw⟩)
  refine Edit.apply_wellFormed wf reindexes.fits ?_ ?_
  · intro B hB d used
    rcases uses B hB _ used with ⟨j, hj, eq⟩ | ⟨c, eq⟩ | ⟨A, hA, usedBefore⟩
    · cases eq
      exact ⟨N, hN, j.ty, Edit.defined_new hI rfl hj, reindexes.fits.value j hj⟩
    · cases eq
    · obtain ⟨D, hD, ty, defined, value⟩ := wf.uses A hA d usedBefore
      exact ⟨D, hD, ty, Edit.defined_old defined nofun, value⟩
  · intro B hB i used
    rcases uses B hB _ used with ⟨j, hj, eq⟩ | ⟨c, eq⟩ | ⟨A, hA, usedBefore⟩
    · cases eq
    · cases eq
    · exact wf.argUses A hA i usedBefore

theorem Reindexes.ssa (ssa : Ssa f) : Ssa ((Edit.reindex I.id news indices).apply count f) := by
  have wf := ssa.wf
  have reads := (ssa_iff.mp ssa).2
  have hI : I ∈ N.body := split ▸ List.mem_append_right _ List.mem_cons_self
  -- an old value stays where it is
  have seen_old : ∀ {B : Block} {A : Block} {d : Nat}, A ∈ f.blocks → Value.inst d ∈ A.uses →
      ∀ {pre : List Inst} (more : List Inst),
      d ∉ more.map Inst.id → Seen f d B (pre.map Inst.id) →
      Seen ((Edit.reindex I.id news indices).apply count f) d
        ((Edit.reindex I.id news indices).block B)
        (((Edit.reindex I.id news indices).body pre ++ more).map Inst.id) := by
    intro B A d hA used pre more outside seen
    have old := wf.uses_lt hA used
    refine (Edit.seen_old reindexes.fits old nofun ?_).mpr seen
    rw [List.map_append, List.mem_append, Edit.mem_pre reindexes.fits old nofun,
      or_iff_left outside]
  have ready_seen : ∀ {v : Value} {d : Nat}, Ready f N before v → v = .inst d →
      Reachable f N.label → ∀ {more : List Inst},
      (∀ j ∈ more, j ∈ news) → Seen ((Edit.reindex I.id news indices).apply count f) d
        ((Edit.reindex I.id news indices).block N)
        (((Edit.reindex I.id news indices).body before ++ more).map Inst.id) := by
    intro v d ready eq reach more isNew
    subst eq
    rcases ready.used with ⟨c, eq⟩ | ⟨A, hA, used⟩
    · cases eq
    · refine seen_old hA used more (fun inside => ?_) (ready.seen d rfl reach)
      obtain ⟨j, hj, eq⟩ := List.mem_map.mp inside
      exact Edit.notNew reindexes.fits (wf.uses_lt hA used) (List.mem_map.mpr ⟨j, isNew j hj, eq⟩)
  refine ssa_iff.mpr ⟨reindexes.wellFormed hN split wf, Edit.reads_apply_iff.mpr ?_⟩
  constructor
  case old =>
    intro B hB reach pre i post split' stays d operand
    rcases reindex_operand operand with old | ⟨here, index⟩
    · have used := mem_uses_of_operand split' old
      exact seen_old hB used _ (Edit.mem_inFront reindexes.fits (wf.uses_lt hB used) i)
        (reads.body B hB reach pre i post split' d old)
    · obtain ⟨rfl, rfl, rfl⟩ := split_unique wf hB hN split' split here
      have inFront : (Edit.reindex i.id news indices).inFront i = news := if_pos rfl
      rw [inFront]
      rcases reindexes.indexReads _ index with ⟨d', hd, eq⟩ | ready
      · cases eq
        refine .inr (.inl ?_)
        rw [List.map_append]
        exact List.mem_append_right _ hd
      · exact ready_seen ready rfl reach fun j hj => hj
  case new =>
    intro B hB reach pre i post split' here first j last newsSplit d operand
    obtain ⟨rfl, rfl, rfl⟩ := split_unique wf hB hN split' split (Option.some.inj here).symm
    have newsSplit' : news = first ++ j :: last := newsSplit
    have member : ∀ k ∈ first ++ j :: last, k ∈ news := fun k hk => newsSplit' ▸ hk
    refine ready_seen (reindexes.reads j (member j (List.mem_append_right _ List.mem_cons_self)) _
      operand) rfl reach fun k hk => ?_
    exact member k (List.mem_append_left _ hk)
  case term =>
    intro B hB reach v hv d eq
    have eq' : v = .inst d := eq
    subst eq'
    have seen :=
      seen_old hB (List.mem_append_right _ hv) [] List.not_mem_nil (reads.term B hB reach d hv)
    rwa [List.append_nil] at seen
  case phi =>
    intro B hB p hp A hA reach v entry d eq
    have eq' : v = .inst d := eq
    subst eq'
    have used : Value.inst d ∈ B.uses := List.mem_append_left _ (List.mem_append_left _
      (List.mem_flatMap.mpr ⟨p, hp, List.mem_map.mpr ⟨_, entry, rfl⟩⟩))
    have seen := seen_old hB used [] List.not_mem_nil (reads.phi B hB p hp A hA reach d entry)
    rwa [List.append_nil] at seen

end

end

end FunctionEdits
