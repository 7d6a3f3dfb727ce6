import ClamBC.Fallible
import ClamBC.PreserveAbis
import Mathlib.Data.List.MinMax

/-!
# Both runs

What the first run does to a module, what the steps in between keep, and what is left after the
second run.
-/

namespace PreserveAbis

open Fallible

/-! ## Steps between the runs -/

section
variable {names : List String} {m : Contents}

theorem flatten_insert (i : Inst) (j : Nat) (blocks : List (List Inst)) (b : Nat) :
    (blocks.modify b fun B => B.insertIdx j i).flatten.Perm (i :: blocks.flatten) ∨
      (blocks.modify b fun B => B.insertIdx j i).flatten = blocks.flatten := by
  induction blocks generalizing b with
  | nil => exact .inr (by simp)
  | cons B blocks ih =>
    cases b with
    | zero =>
      rw [List.modify_zero_cons, List.flatten_cons, List.flatten_cons]
      rcases le_or_gt j B.length with inside | outside
      · exact .inl ((List.perm_insertIdx i B inside).append_right _)
      · exact .inr (by rw [List.insertIdx_of_length_lt outside])
    | succ b =>
      rw [List.modify_succ_cons, List.flatten_cons, List.flatten_cons]
      rcases ih b with more | same
      · exact .inl ((more.append_left B).trans List.perm_middle)
      · exact .inr (by rw [same])

/-- A function after an insertion. -/
theorem mem_insertInst {g b j : Nat} {i : Inst} {F' : Func}
    (mem : F' ∈ (m.insertInst g b j i).functions) :
    ∃ F ∈ m.functions, F'.id = F.id ∧
      (F.id = g ∧ F'.insts.Perm (i :: F.insts) ∨ F'.insts = F.insts) := by
  obtain ⟨F, hF, rfl⟩ := List.mem_map.mp mem
  refine ⟨F, hF, ?_⟩
  by_cases here : F.id = g
  · rw [if_pos here]
    exact ⟨rfl, (flatten_insert i j F.blocks b).imp (fun more => ⟨here, more⟩) id⟩
  · rw [if_neg here]
    exact ⟨rfl, .inr rfl⟩

theorem map_insertInst {β : Type} (φ : Func → β)
    (other : ∀ F blocks, φ { F with blocks := blocks } = φ F) (g b j : Nat) (i : Inst) :
    (m.insertInst g b j i).functions.map φ = m.functions.map φ := by
  rw [Contents.insertInst, List.map_map]
  refine List.map_congr_left fun F _ => ?_
  show φ (if F.id = g then _ else F) = φ F
  split
  · exact other F _
  · rfl

theorem fakes_insertInst (g b j : Nat) (i : Inst) :
    fakes names (m.insertInst g b j i) = fakes names m := by
  have fields := map_insertInst (m := m) (fun F => (F.name, F.id)) (fun _ _ => rfl) g b j i
  have recorded (fs : List Func) : (fs.filter fun F => F.name ∈ names).map Func.id =
      ((fs.map fun F => (F.name, F.id)).filter fun F => F.1 ∈ names).map Prod.snd := by
    simp only [List.filter_map, List.map_map, Function.comp_def]
  rw [fakes, recorded, fields, ← recorded, fakes]

theorem users_insertInst {g b j : Nat} {i : Inst} {v : Value} (unused : m.users v = [])
    (notOperand : v ∉ i.operands) :
    (m.insertInst g b j i).users v = [] := by
  obtain ⟨insts, constants, globals⟩ := users_eq_nil.mp unused
  refine users_eq_nil.mpr ⟨fun F' hF' x hx => ?_, constants, globals⟩
  obtain ⟨F, hF, -, ⟨-, more⟩ | same⟩ := mem_insertInst hF'
  · rcases List.mem_cons.mp (more.mem_iff.mp hx) with rfl | hx
    · exact notOperand
    · exact insts F hF x hx
  · exact insts F hF x (same ▸ hx)

theorem Inv.insertInst (inv : Inv names m) {g b j n h : Nat} {args : List Value}
    (fake : h ∈ fakes names m) (isNew : ∀ F ∈ m.functions, F.id = g → n ∉ F.insts.map Inst.id)
    (unused : m.users (.inst g n) = []) (plain : ∀ v ∈ args, v ≠ .inst g n ∧ Plain names m v) :
    Inv names (m.insertInst g b j ⟨n, .call, args ++ [.function h]⟩) := by
  have called : Inst.calledFunction ⟨n, .call, args ++ [.function h]⟩ = some h :=
    calledFunction_eq_some.mpr ⟨rfl, List.getLast?_concat⟩
  refine ⟨inv.recorded, ?_, ?_, ?_, ?_, ?_, ?_⟩
  · rw [map_insertInst Func.id fun _ _ => rfl]
    exact inv.ids
  · rw [map_insertInst Func.name fun _ _ => rfl]
    exact inv.functionNames
  · intro F' hF'
    obtain ⟨F, hF, -, ⟨rfl, more⟩ | same⟩ := mem_insertInst hF'
    · rw [(more.map Inst.id).nodup_iff]
      exact List.nodup_cons.mpr ⟨isNew F hF rfl, inv.instIds F hF⟩
    · rw [same]
      exact inv.instIds F hF
  · rw [fakes_insertInst]
    intro h' fake' F' hF' i hi use
    have oldCall : ∀ F ∈ m.functions, i ∈ F.insts → F'.id = F.id →
        i.calledFunction = some h' ∧
          (m.insertInst g b j ⟨n, .call, args ++ [.function h]⟩).users (.inst F'.id i.id) = [] := by
      intro F hF hi same
      obtain ⟨called', unused'⟩ := inv.calls h' fake' F hF i hi use
      refine ⟨called', users_insertInst (same ▸ unused') fun operand => ?_⟩
      rcases List.mem_append.mp operand with arg | last
      · exact (plain _ arg).2.2 F hF i hi (PreserveAbis.calls_iff.mpr ⟨h', fake', called'⟩)
          (congrArg (Value.inst · i.id) same)
      · exact nomatch List.mem_singleton.mp last
    obtain ⟨F, hF, sameId, ⟨rfl, more⟩ | same⟩ := mem_insertInst hF'
    · rcases List.mem_cons.mp (more.mem_iff.mp hi) with rfl | hi
      · rcases List.mem_append.mp use with arg | last
        · exact absurd rfl ((plain _ arg).2.1 h' fake')
        · obtain rfl : h' = h := Value.function.inj (List.mem_singleton.mp last)
          refine ⟨called, users_insertInst (sameId ▸ unused) fun operand => ?_⟩
          rcases List.mem_append.mp operand with arg | last
          · exact (plain _ arg).1 (congrArg (Value.inst · n) sameId)
          · exact nomatch List.mem_singleton.mp last
      · exact oldCall F hF hi sameId
    · exact oldCall F hF (same ▸ hi) sameId
  · rw [fakes_insertInst]
    exact inv.constants
  · rw [fakes_insertInst]
    exact inv.globals

theorem Inv.step (inv : Inv names m) {m' : Contents} (step : Step names m m') : Inv names m' := by
  cases step with
  | copyCall g b j n h args fake isNew unused plain => exact inv.insertInst fake isNew unused plain
  | deleteCall F i here mem calls => exact inv.restrict _ _ (List.Subset.refl _) inv.recorded
  | deleteFunction h notFake => exact inv.restrict _ _ (List.Subset.refl _) inv.recorded
  | deleteDeclaration h fake unused => exact inv.restrict _ _ (List.Subset.refl _) inv.recorded

theorem Inv.steps (inv : Inv names m) {m' : Contents}
    (steps : Relation.ReflTransGen (Step names) m m') : Inv names m' := by
  induction steps with
  | refl => exact inv
  | tail _ step ih => exact ih.step step

end

/-! ## The first run -/

theorem lt_fresh {ids : List Nat} {n : Nat} (mem : n ∈ ids) : n < fresh ids :=
  Nat.lt_succ_of_le (List.le_max_of_le' 0 mem le_rfl)

theorem fresh_notMem (ids : List Nat) : fresh ids ∉ ids := fun mem => (lt_fresh mem).false

theorem insts_externalize (F : Func) : (externalize F).insts = F.insts := by
  unfold externalize
  split
  · rfl
  · split <;> rfl

theorem externalize_id (F : Func) : (externalize F).id = F.id := by
  unfold externalize
  split
  · rfl
  · split <;> rfl

theorem externalize_name (F : Func) : (externalize F).name = F.name := by
  unfold externalize
  split
  · rfl
  · split <;> rfl

theorem externalize_blocks (F : Func) : (externalize F).blocks = F.blocks := by
  unfold externalize
  split
  · rfl
  · split <;> rfl

/-- What the first run makes of a function: it may have a call of a new declaration in its entry. -/
inductive Extended (new : List Func) (F : Func) : Func → Prop
  | none : Extended new F (externalize F)
  | call (pre post : List Inst) (rest : List (List Inst)) (pf : Func) (mem : pf ∈ new)
      (blocks : F.blocks = (pre ++ post) :: rest) :
      Extended new F
        { externalize F with blocks := (pre ++ fakeCall (externalize F) pf :: post) :: rest }

section
variable {new : List Func} {F F' : Func}

theorem Extended.mono {new' : List Func} (sub : new ⊆ new') (ext : Extended new F F') :
    Extended new' F F' := by
  cases ext with
  | none => exact .none
  | call pre post rest pf mem blocks => exact .call pre post rest pf (sub mem) blocks

theorem Extended.id_eq (ext : Extended new F F') : F'.id = F.id := by
  cases ext with
  | none => exact externalize_id F
  | call => exact externalize_id F

theorem Extended.name_eq (ext : Extended new F F') : F'.name = F.name := by
  cases ext with
  | none => exact externalize_name F
  | call => exact externalize_name F

theorem Extended.insts (ext : Extended new F F') :
    F'.insts = F.insts ∨ ∃ pf ∈ new, F'.insts.Perm (fakeCall (externalize F) pf :: F.insts) := by
  cases ext with
  | none => exact .inl (insts_externalize F)
  | call pre post rest pf mem blocks =>
    refine .inr ⟨pf, mem, ?_⟩
    simp only [Func.insts, blocks, List.flatten_cons, List.append_assoc, List.cons_append]
    exact List.perm_middle

end

section
variable (table : SymbolTable)

theorem processFunction_extended (all : List Func) (F : Func)
    (entry : ∀ B ∈ F.blocks.head?, B.all isAlloca = false) (defined : F.isDeclaration = false) :
    ∃ F' new, processFunction table all (externalize F) = .ok (F', new) ∧ Extended new F F' ∧
      (new = [] ∨ new = [fakeFunction table all (externalize F)]) := by
  unfold processFunction
  split
  · exact ⟨_, [], rfl, .none, .inl rfl⟩
  · have blocks := externalize_blocks F
    cases eq : F.blocks with
    | nil => simp [Func.isDeclaration, eq] at defined
    | cons B rest =>
      rw [eq] at blocks entry
      have some := entry B rfl
      refine ⟨_, [fakeFunction table all (externalize F)], ?_,
        .call (B.takeWhile isAlloca) (B.dropWhile isAlloca) rest _
        List.mem_cons_self ?_, .inr rfl⟩
      · simp only [blocks, some]
        rfl
      · rw [List.takeWhile_append_dropWhile, eq]

/-- New declarations have identities and names of their own. -/
structure AllNew (all new : List Func) : Prop where
  declarations : ∀ pf ∈ new, pf.blocks = []
  ids : (all.map Func.id).Nodup → ((all ++ new).map Func.id).Nodup
  names : (all.map Func.name).Nodup → ((all ++ new).map Func.name).Nodup

theorem AllNew.nil (all : List Func) : AllNew all [] :=
  ⟨nofun, fun ids => by rwa [List.append_nil], fun names => by rwa [List.append_nil]⟩

theorem AllNew.single (all : List Func) (F : Func) : AllNew all [fakeFunction table all F] := by
  refine ⟨fun pf mem => ?_, fun ids => ?_, fun names => ?_⟩
  · rw [List.mem_singleton.mp mem]
    rfl
  · rw [List.map_append, List.map_singleton, ← List.concat_eq_append, List.nodup_concat]
    exact ⟨fresh_notMem _, ids⟩
  · rw [List.map_append, List.map_singleton, ← List.concat_eq_append, List.nodup_concat]
    exact ⟨table.unique_notMem _ _, names⟩

theorem AllNew.append {all new new' : List Func} (first : AllNew all new)
    (second : AllNew (all ++ new) new') : AllNew all (new ++ new') := by
  refine ⟨fun pf mem => (List.mem_append.mp mem).elim (first.declarations pf)
    (second.declarations pf), fun ids => ?_, fun names => ?_⟩
  · rw [← List.append_assoc]
    exact second.ids (first.ids ids)
  · rw [← List.append_assoc]
    exact second.names (first.names names)

theorem addFakeFunctions_spec (all fs fakeFunctions : List Func)
    (terminated : ∀ F ∈ fs, ∀ entry ∈ F.blocks.head?, entry.all isAlloca = false) :
    ∃ fs' new, addFakeFunctions table all fs fakeFunctions = .ok (fs', fakeFunctions ++ new) ∧
      List.Forall₂ (Extended new) fs fs' ∧
      AllNew (all ++ fakeFunctions) new := by
  induction fs generalizing fakeFunctions with
  | nil => exact ⟨[], [], by rw [List.append_nil]; rfl, .nil, .nil _⟩
  | cons F rest ih =>
    have one : ∃ F' new, (if F.isDeclaration then .ok (F, []) else
        processFunction table (all ++ fakeFunctions) (externalize F)) = .ok (F', new) ∧
        Extended new F F' ∧ AllNew (all ++ fakeFunctions) new := by
      cases defined : F.isDeclaration with
      | true =>
        have same : externalize F = F := by rw [externalize, defined, if_pos rfl]
        have unchanged : Extended [] F (externalize F) := .none
        rw [same] at unchanged
        exact ⟨F, [], rfl, unchanged, .nil _⟩
      | false =>
        obtain ⟨F', new, run, ext, eq⟩ := processFunction_extended table (all ++ fakeFunctions) F
          (terminated F List.mem_cons_self) defined
        refine ⟨F', new, run, ext, ?_⟩
        rcases eq with rfl | rfl
        · exact .nil _
        · exact .single table _ _
    obtain ⟨F', new, run, ext, isNew⟩ := one
    obtain ⟨rest', new', runs, exts, areNew⟩ :=
      ih (fakeFunctions ++ new) fun G hG => terminated G (List.mem_cons_of_mem _ hG)
    refine ⟨F' :: rest', new ++ new', ?_, ?_, ?_⟩
    · rw [addFakeFunctions, run, Except.bind, runs, Except.map, List.append_assoc]
    · exact .cons (ext.mono (List.subset_append_left _ _)) (exts.imp fun _ _ ext =>
        ext.mono (List.subset_append_right _ _))
    · exact isNew.append (List.append_assoc all _ _ ▸ areNew)

/-- The module after the first run. -/
theorem firstRun_spec (p : Program) : ∃ fs new, firstRun table p.toContents =
    .ok ({ p.toContents with functions := fs ++ new }, new.map Func.name) ∧
    List.Forall₂ (Extended new) p.functions fs ∧ AllNew p.functions new := by
  obtain ⟨fs, new, run, exts, areNew⟩ :=
    addFakeFunctions_spec table p.functions p.functions [] p.terminated
  rw [List.append_nil] at areNew
  refine ⟨fs, new, ?_, exts, areNew⟩
  rw [firstRun, run]
  rfl

end

theorem calledFunction_fakeCall (F pf : Func) : (fakeCall F pf).calledFunction = some pf.id :=
  calledFunction_eq_some.mpr ⟨rfl, List.getLast?_concat⟩

/-- A call of a new declaration reads arguments of its function. -/
theorem operands_fakeCall {F pf : Func} {v : Value} (mem : v ∈ (fakeCall F pf).operands) :
    v = .function pf.id ∨ ∃ k, v = .arg F.id k := by
  rcases List.mem_append.mp mem with arg | last
  · obtain ⟨k, -, rfl⟩ := List.mem_map.mp arg
    exact .inr ⟨k, rfl⟩
  · exact .inl (List.mem_singleton.mp last)

theorem restrict_eq_self {F : Func} {keep : Inst → Bool} (all : ∀ i ∈ F.insts, keep i = true) :
    F.restrict keep = F := by
  have blocks : F.blocks.map (fun B => B.filter keep) = F.blocks := by
    refine (List.map_congr_left fun B hB => ?_).trans (List.map_id F.blocks)
    exact List.filter_eq_self.mpr fun i hi => all i (List.mem_flatten_of_mem hB hi)
  rw [Func.restrict, blocks]

/-- Without the new call, a function is as before. -/
theorem Extended.restrict {new : List Func} {F F' : Func}
    (ext : Extended new F F') {keep : Inst → Bool} (old : ∀ i ∈ F.insts, keep i = true)
    (call : ∀ pf ∈ new, keep (fakeCall (externalize F) pf) = false) :
    F'.restrict keep = externalize F := by
  have unchanged : (externalize F).restrict keep = externalize F :=
    restrict_eq_self (by rwa [insts_externalize])
  cases ext with
  | none => exact unchanged
  | call pre post rest pf mem blocks =>
    rw [← externalize_blocks] at blocks
    refine Eq.trans ?_ unchanged
    simp only [Func.restrict, blocks, List.map_cons, List.filter_append, List.filter_cons,
      call pf mem, Bool.false_eq_true, if_false]

section
variable {p : Program} {fs new : List Func} (exts : List.Forall₂ (Extended new) p.functions fs)
  (areNew : AllNew p.functions new)
include exts

theorem ids_first : (fs ++ new).map Func.id = (p.functions ++ new).map Func.id := by
  rw [List.map_append, List.map_append, map_eq_of_forall₂ exts fun _ _ _ ext => ext.id_eq]

theorem names_first : (fs ++ new).map Func.name = (p.functions ++ new).map Func.name := by
  rw [List.map_append, List.map_append, map_eq_of_forall₂ exts fun _ _ _ ext => ext.name_eq]

include areNew

theorem nodup_ids_first : ((fs ++ new).map Func.id).Nodup := ids_first exts ▸ areNew.ids p.ids

theorem nodup_names_first : ((fs ++ new).map Func.name).Nodup :=
  names_first exts ▸ areNew.names p.names

theorem fakes_first {h : Nat} :
    h ∈ fakes (new.map Func.name) { p.toContents with functions := fs ++ new } ↔
      h ∈ new.map Func.id := by
  rw [mem_fakes]
  constructor
  · rintro ⟨F, hF, named, rfl⟩
    obtain ⟨pf, hpf, same⟩ := List.mem_map.mp named
    rw [← List.inj_on_of_nodup_map (nodup_names_first exts areNew)
      (List.mem_append_right _ hpf) hF same]
    exact List.mem_map_of_mem hpf
  · intro mem
    obtain ⟨pf, hpf, rfl⟩ := List.mem_map.mp mem
    exact ⟨pf, List.mem_append_right _ hpf, List.mem_map_of_mem hpf, rfl⟩

omit exts

/-- Nothing of the program uses a new declaration. -/
theorem users_new {h : Nat} (mem : h ∈ new.map Func.id) : p.users (.function h) = [] := by
  refine List.eq_nil_iff_forall_not_mem.mpr fun v use => ?_
  have nodup := areNew.ids p.ids
  rw [List.map_append] at nodup
  exact (List.nodup_append.mp nodup).2.2 h (p.functionOperands v h use) h mem rfl

theorem calls_old {F : Func} (hF : F ∈ p.functions) {i : Inst} (hi : i ∈ F.insts) {hs : List Nat}
    (sub : ∀ h ∈ hs, h ∈ new.map Func.id) :
    i.calls hs = false := by
  rw [← Bool.not_eq_true, calls_iff]
  rintro ⟨h, mem, called⟩
  exact (users_eq_nil.mp (users_new areNew (sub h mem))).1 F hF i hi
    (mem_operands_of_calledFunction called)

include exts

theorem inv_first : Inv (new.map Func.name) { p.toContents with functions := fs ++ new } := by
  have fake {h : Nat} := fakes_first exts areNew (h := h)
  -- The instructions are those of the program, and new calls.
  have origin : ∀ F' ∈ fs ++ new, ∀ i ∈ F'.insts, ∃ F ∈ p.functions, F'.id = F.id ∧
      (i ∈ F.insts ∨ ∃ pf ∈ new, i = fakeCall (externalize F) pf) := by
    intro F' hF' i hi
    rcases List.mem_append.mp hF' with mem | mem
    · obtain ⟨F, hF, ext⟩ := exists_of_forall₂ exts mem
      refine ⟨F, hF, ext.id_eq, ?_⟩
      rcases ext.insts with same | ⟨pf, hpf, more⟩
      · exact .inl (same ▸ hi)
      · exact (List.mem_cons.mp (more.mem_iff.mp hi)).elim (fun eq => .inr ⟨pf, hpf, eq⟩) .inl
    · simp [Func.insts, areNew.declarations F' mem] at hi
  refine ⟨?_, nodup_ids_first exts areNew, nodup_names_first exts areNew, ?_, ?_, ?_, ?_⟩
  · have names := areNew.names p.names
    rw [List.map_append] at names
    exact (List.nodup_append.mp names).2.1
  · intro F' hF'
    rcases List.mem_append.mp hF' with mem | mem
    · obtain ⟨F, hF, ext⟩ := exists_of_forall₂ exts mem
      rcases ext.insts with same | ⟨pf, hpf, more⟩
      · rw [same]
        exact p.instIds F hF
      · rw [(more.map Inst.id).nodup_iff]
        refine List.nodup_cons.mpr ⟨?_, p.instIds F hF⟩
        rw [← insts_externalize F]
        exact fresh_notMem _
    · simp [Func.insts, areNew.declarations F' mem]
  · intro h mem F' hF' i hi use
    obtain ⟨F, hF, sameId, old | ⟨pf, hpf, rfl⟩⟩ := origin F' hF' i hi
    · exact absurd use ((users_eq_nil.mp (users_new areNew (fake.mp mem))).1 F hF i old)
    · have callee : h = pf.id := by
        rcases operands_fakeCall use with eq | ⟨k, eq⟩
        · exact Value.function.inj eq
        · cases eq
      subst callee
      refine ⟨calledFunction_fakeCall _ pf, ?_⟩
      have unused : p.users (.inst F'.id (fakeCall (externalize F) pf).id) = [] := by
        refine List.eq_nil_iff_forall_not_mem.mpr fun v use => ?_
        obtain ⟨G, hG, same, isId⟩ := p.instOperands v _ _ use
        rw [sameId] at same
        obtain rfl := List.inj_on_of_nodup_map p.ids hG hF same
        rw [← insts_externalize G] at isId
        exact fresh_notMem _ isId
      obtain ⟨insts, constants, globals⟩ := users_eq_nil.mp unused
      refine users_eq_nil.mpr ⟨fun G' hG' j hj operand => ?_, constants, globals⟩
      obtain ⟨G, hG, -, old | ⟨pf', -, rfl⟩⟩ := origin G' hG' j hj
      · exact insts G hG j old operand
      · rcases operands_fakeCall operand with eq | ⟨k, eq⟩
        · cases eq
        · cases eq
  · exact fun h mem => (users_eq_nil.mp (users_new areNew (fake.mp mem))).2.1
  · exact fun h mem => (users_eq_nil.mp (users_new areNew (fake.mp mem))).2.2

/-- Without steps in between, both runs give the program with other linkage. -/
theorem strip_first : strip (new.map Func.name) { p.toContents with functions := fs ++ new } =
    { p.toContents with functions := p.functions.map externalize } := by
  have fake {h : Nat} := fakes_first exts areNew (h := h)
  have nodup := nodup_ids_first exts areNew
  rw [List.map_append, List.nodup_append] at nodup
  have apart : ∀ F ∈ fs, F.id ∉ new.map Func.id :=
    fun F hF mem => nodup.2.2 _ (List.mem_map_of_mem hF) _ mem rfl
  have kept : (fs ++ new).filter (fun F =>
      F.id ∉ fakes (new.map Func.name) { p.toContents with functions := fs ++ new }) = fs := by
    rw [List.filter_append,
      List.filter_eq_self.mpr fun F hF => by simpa only [decide_eq_true_eq, fake] using apart F hF,
      List.filter_eq_nil_iff.mpr
        fun F hF => by simpa only [decide_eq_true_eq, fake, not_not] using List.mem_map_of_mem hF,
        List.append_nil]
  unfold strip Contents.restrict
  rw [kept]
  congr 1
  refine map_eq_of_forall₂ exts fun F hF F' ext => ext.restrict (fun i hi => ?_) fun pf hpf => ?_
  · exact congrArg Bool.not (calls_old areNew hF hi fun h => fake.mp)
  · exact congrArg Bool.not (calls_iff.mpr ⟨pf.id, fake.mpr (List.mem_map_of_mem hpf),
      calledFunction_fakeCall (externalize F) pf⟩)

end

theorem present_first {p : Program} {fs new : List Func} :
    Present (new.map Func.name) { p.toContents with functions := fs ++ new } := by
  intro name mem
  obtain ⟨pf, hpf, named⟩ := List.mem_map.mp mem
  exact ⟨pf, List.mem_append_right _ hpf, named⟩

/-- Without steps in between, both runs give the program with external linkage. With steps, the
second run gives the module without fake calls, fake declarations and metadata exactly if all
declarations are still there. -/
theorem run_run_iff (table : SymbolTable) (p : Program) (k : Nat) :
    ∃ m names, run table k p.toContents none = .ok (m, some names) ∧
    run table (k + 2) m (some names) =
      .ok ({ p.toContents with functions := p.functions.map externalize }, none) ∧
    ∀ m', Relation.ReflTransGen (Step names) m m' →
      (run table (k + 2) m' (some names) = .ok (strip names m', none) ↔ Present names m') := by
  obtain ⟨fs, new, first, exts, areNew⟩ := firstRun_spec table p
  have inv := inv_first exts areNew
  refine ⟨{ p.toContents with functions := fs ++ new }, new.map Func.name, ?_, ?_,
    fun m' steps => ?_⟩
  · exact congrArg (Except.map _) first
  · rw [run, removeFakeFunctions_eq inv k, if_pos present_first, strip_first exts areNew]
    rfl
  · rw [run, removeFakeFunctions_eq (inv.steps steps) k]
    by_cases present : Present (new.map Func.name) m'
    · rw [if_pos present]
      exact iff_of_true rfl present
    · rw [if_neg present]
      exact iff_of_false nofun present

/-- Enough underscores after a name that is taken make it longer than every other. -/
def underscores : SymbolTable where
  unique := fun taken name =>
    if name ∈ taken then
      name ++ String.ofList (List.replicate (fresh (taken.map String.length)) '_') else name
  unique_notMem := by
    intro taken name
    split
    · intro mem
      have longest := lt_fresh (List.mem_map_of_mem (f := String.length) mem)
      simp only [String.length_append, String.length_ofList, List.length_replicate] at longest
      omega
    · assumption

/-- A function with an argument that it does not use. -/
def oneFunction : Program where
  functions := [⟨0, "f", .internal, ⟨[.int 32], .void⟩, [[⟨0, .other 1, []⟩]]⟩]
  constants := []
  globals := []
  ids := by simp
  names := by simp
  instIds := by simp [Func.insts]
  functionOperands := by simp [Contents.users, Func.insts]
  instOperands := by simp [Contents.users, Func.insts]
  terminated := by simp [isAlloca]

def preserved : Contents where
  functions := [
    ⟨0, "f", .external, ⟨[.int 32], .void⟩,
      [[⟨1, .call, [.arg 0 0, .function 1]⟩, ⟨0, .other 1, []⟩]]⟩,
    ⟨1, "f_fake", .external, ⟨[.int 32], .void⟩, []⟩]
  constants := []
  globals := []

/-- When the call and then the declaration have been deleted, the second run uses a null pointer. -/
theorem null_after_deletion :
    ∃ m names m', run underscores 2 oneFunction.toContents none = .ok (m, some names) ∧
    Relation.ReflTransGen (Step names) m m' ∧
      run underscores 2 m' (some names) ≠ .ok (strip names m', none) := by
  have deleteCall : Step ["f_fake"] preserved (preserved.eraseInst 0 1) :=
    .deleteCall ⟨0, "f", .external, ⟨[.int 32], .void⟩, _⟩ ⟨1, .call, _⟩ List.mem_cons_self
      List.mem_cons_self rfl
  have deleteDeclaration :
      Step ["f_fake"] (preserved.eraseInst 0 1) ((preserved.eraseInst 0 1).eraseFunction 1) :=
    .deleteDeclaration 1 List.mem_cons_self rfl
  refine ⟨preserved, ["f_fake"], (preserved.eraseInst 0 1).eraseFunction 1, rfl,
    .tail (.single deleteCall) deleteDeclaration, ?_⟩
  have result : run underscores 2 ((preserved.eraseInst 0 1).eraseFunction 1) (some ["f_fake"]) =
    .error .null := rfl
  rw [result]
  exact nofun

end PreserveAbis
