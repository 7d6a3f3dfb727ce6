import ClamBC.LogicalConjunction
import ClamBC.LogicalConstructed
import ClamBC.LogicalInstructions
import ClamBC.SsaChecks
import ClamBC.TriggerRun

/-!
# Several returns

The nodes of all returned values are or-ed, whether or not the run gets to the return, and
a constant return adds a constant. The result is therefore right only where the returns
that the run does not reach, taken together, agree with the one that it reaches.
-/

namespace LogicalReturns

open Ir IrExec LogicalNode LogicalCompiler LogicalShape LogicalMap LogicalMeaning
  LogicalConjunction LogicalNormal LogicalConstructed LogicalInstructions TriggerRun Fallible

/-- A return block returns the value of this instruction. -/
def Returned (f : Function) (d : Nat) : Prop := ∃ B ∈ f.blocks, B.term = .ret (some (.inst d))

def ReturnsTrueOnly (f : Function) : Prop :=
  ∀ B ∈ f.blocks, ∀ v, B.term = .ret (some v) → ∃ bits c, v = .const (.int bits c) ∧ c ≠ 0

/-- The return that is reached, given the run-time values of all returned instructions, is not
outvoted by the others. -/
def DecidesAlone (f : Function) (val : Nat → Bool) : Term Value → Prop
  | .ret (some (.const (.int _ 0))) => ∀ d, Returned f d → val d = false
  | .ret (some (.const (.int _ _))) => ReturnsTrueOnly f ∨ ∃ d, Returned f d ∧ val d = true
  | .ret (some (.inst d)) => val d = true ∨ ∀ e, Returned f e → val e = false
  | _ => True

section
variable {o : PtrOrder} {gv : GlobalId} {f : Function} {map : Nat → Option Ptr} {counts : Counts}
  {val : Nat → Bool}

/-- The members of the disjunction: FALSE, or the node of a returned value. -/
theorem mem_exits (settled : ∀ B ∈ f.blocks, BlockSettled o gv f map B) {n : Node}
    (h : n ∈ f.blocks.flatMap fun B => exitOr o map B.term) :
    n = .const false ∨ ∃ d m, Returned f d ∧ map d = some (some m) ∧ n = getAnd o [m] := by
  obtain ⟨B, hB, hn⟩ := List.mem_flatMap.mp h
  cases term : B.term with
  | ret v =>
    cases v with
    | none => simp [exitOr, term] at hn
    | some v =>
      have found := (settled B hB).term
      rw [term] at found hn
      rcases found with constant | ⟨m, found⟩
      · left
        unfold isConstantInt at constant
        split at constant
        · simp only [exitOr] at hn
          split_ifs at hn
          · exact List.mem_singleton.mp hn
          · cases hn
        · cases constant
      · cases v with
        | inst d =>
          simp only [exitOr, found, List.mem_singleton] at hn
          exact Or.inr ⟨d, m, ⟨B, hB, term⟩, found, hn⟩
        | arg i => cases found
        | const c => cases found
  | _ => simp [exitOr, term] at hn

theorem returned_mem_exits (settled : ∀ B ∈ f.blocks, BlockSettled o gv f map B) {d : Nat}
    (returned : Returned f d) :
    ∃ m, map d = some (some m) ∧ getAnd o [m] ∈ f.blocks.flatMap fun B => exitOr o map B.term := by
  obtain ⟨B, hB, term⟩ := returned
  have found := (settled B hB).term
  rw [term] at found
  rcases found with constant | ⟨m, found⟩
  · cases constant
  · have found' : map d = some (some m) := found
    refine ⟨m, found', List.mem_flatMap.mpr ⟨B, hB, ?_⟩⟩
    simp [exitOr, term, found]

/-- Without a false or computed return nothing is or-ed. -/
theorem exits_nil_iff (settled : ∀ B ∈ f.blocks, BlockSettled o gv f map B) :
    (f.blocks.flatMap fun B => exitOr o map B.term) = [] ↔ ReturnsTrueOnly f := by
  rw [List.flatMap_eq_nil_iff]
  refine forall₂_congr fun B hB => ?_
  have found := (settled B hB).term
  cases term : B.term with
  | ret v =>
    cases v with
    | none => simp [exitOr]
    | some v =>
      rw [term] at found
      rcases found with constant | ⟨m, found⟩
      · unfold isConstantInt at constant
        split at constant
        · next bits c =>
          by_cases zero : c = 0
          · simp [exitOr, zero]
          · simp [exitOr, zero]
        · cases constant
      · cases v with
        | inst d => simp [exitOr, found]
        | arg i => cases found
        | const c => cases found
  | _ => simp [exitOr]

theorem exitAnd_true {n : Node} (h : n ∈ f.blocks.flatMap fun B => exitAnd B.term) :
    n = .const true := by
  obtain ⟨B, -, hn⟩ := List.mem_flatMap.mp h
  unfold exitAnd at hn
  split at hn
  · split_ifs at hn
    · cases hn
    · exact List.mem_singleton.mp hn
  · cases hn

/-- A disjunction is conjoined with others without loss if its arguments are: a single member that
is left of it is one of these. -/
theorem andKept_getOr {V : List Node} (normal : ∀ n ∈ V, Normal n) (kept : ∀ n ∈ V, AndKept [n]) :
    AndKept [getOr o V] := by
  unfold getOr
  split_ifs
  · exact andKept_single nofun
  · split
    · exact andKept_single nofun
    · next n single =>
      have only : ∀ m ∈ V.flatMap alternatives, m = n := by
        intro m hm
        have member := mem_inserted.mpr hm
        rw [single] at member
        exact List.mem_singleton.mp member
      obtain ⟨m, hm, inside⟩ : ∃ m ∈ V, n ∈ alternatives m := by
        refine List.mem_flatMap.mp (mem_inserted.mp ?_)
        rw [single]
        exact List.mem_singleton_self n
      have all : ∀ c ∈ alternatives m, c = n :=
        fun c hc => only c (List.mem_flatMap.mpr ⟨m, hm, hc⟩)
      unfold alternatives at inside all
      split at inside
      · cases inside
      · next cs =>
        -- the members of a disjunction differ
        cases normal _ hm with
        | or flat _ =>
          have replicated : cs = List.replicate cs.length n := List.eq_replicate_of_mem all
          have nodup : (List.replicate cs.length n).Nodup := by
            rw [← replicated]
            exact flat.nodup
          have short := List.nodup_replicate.mp nodup
          have wide := flat.wide
          omega
      · rw [List.mem_singleton.mp inside]
        exact kept m hm
    · exact andKept_single nofun

/-- What the node of an accepted function says. -/
theorem holds_node {node : Node} (settled : Settled o gv f map node)
    (constructed : ConstructedMap map)
    (kept : ∀ d n, Returned f d → map d = some (some n) → AndKept [n])
    (evaluates : ∀ d n, Returned f d → map d = some (some n) → (Holds counts n ↔ val d = true)) :
    Holds counts node ↔ ReturnsTrueOnly f ∨ ∃ d, Returned f d ∧ val d = true := by
  have exitKept : ∀ n ∈ f.blocks.flatMap (fun B => exitOr o map B.term), AndKept [n] := by
    intro n hn
    rcases mem_exits settled.block hn with rfl | ⟨d, m, returned, found, rfl⟩
    · exact andKept_single nofun
    · exact (kept d m returned found).getAnd
  have alone : ∀ d n, Returned f d → map d = some (some n) →
      (Holds counts (getAnd o [n]) ↔ val d = true) := by
    intro d n returned found
    rw [holds_getAnd_of_kept (kept d n returned found)]
    simpa using evaluates d n returned found
  have ands : getAnd o (f.blocks.flatMap fun B => exitAnd B.term) = .const true :=
    getAnd_true fun n => exitAnd_true
  have orKept : AndKept [getOrExits o (f.blocks.flatMap fun B => exitOr o map B.term)] := by
    unfold getOrExits
    split_ifs
    · exact andKept_single nofun
    · exact andKept_getOr (fun n hn => (exits_constructed constructed hn).normal) exitKept
  rw [settled.node, ands, holds_getAnd_of_kept (andKept_and_true orKept)]
  simp only [List.mem_cons, List.not_mem_nil, or_false, forall_eq_or_imp, forall_eq, holds_const,
    and_true]
  unfold getOrExits
  split_ifs with empty
  · have only := (exits_nil_iff settled.block).mp empty
    simp [only]
  · have some_other : ¬ ReturnsTrueOnly f :=
      fun only => empty ((exits_nil_iff settled.block).mpr only)
    rw [holds_getOr]
    constructor
    · rintro ⟨n, hn, holds⟩
      rcases mem_exits settled.block hn with rfl | ⟨d, m, returned, found, rfl⟩
      · simp at holds
      · exact Or.inr ⟨d, returned, (alone d m returned found).mp holds⟩
    · rintro (only | ⟨d, returned, yes⟩)
      · exact absurd only some_other
      · obtain ⟨m, found, member⟩ := returned_mem_exits settled.block returned
        exact ⟨_, member, (alone d m returned found).mpr yes⟩

end

/-- The node of a function with several returns says whether the reached return is true, exactly
if that return is not outvoted by the others. `val` gives the run-time value of every returned
instruction; the node of each of them can be conjoined once more without loss. -/
theorem returns_unified_iff
    {o : PtrOrder} {gv : GlobalId} {f : Function} {s : LogicalCompiler.State} {node : Node}
    {counts : Counts} {val : Nat → Bool} {mem : Memory} {B : Block} {x : Val} (wf : f.WellFormed)
    (compiled : compile o (some gv) f = .ok (s, some node)) (reached : Returns f mem B x)
    (agrees : ∀ d, B.term = .ret (some (.inst d)) → truthVal x = val d)
    (evaluates : ∀ d n, Returned f d → s.map d = some (some n) → (Holds counts n ↔ val d = true))
    (kept : ∀ d n, Returned f d → s.map d = some (some n) → AndKept [n]) :
    (Holds counts node ↔ truthVal x = true) ↔ DecidesAlone f val B.term := by
  have settled := compile_settled wf compiled
  rw [holds_node settled (compile_constructedMap compiled) kept evaluates]
  obtain ⟨n, w, hw, block, exit⟩ := reached
  have hB : B ∈ f.blocks := List.mem_of_find?_eq_some block
  -- the reached block ends in a return, and its value was evaluated at the end
  obtain ⟨v, regs, term, value⟩ : ∃ v regs, B.term = .ret (some v) ∧
      x = eval sem (fun _ => .other 0) regs v := by
    unfold runs call at hw
    split at hw
    · cases hw
    · obtain ⟨q, l, t, rfl, -⟩ :=
        run_invariant sem _ _ f (fun _ _ _ => True) (fun _ _ _ _ _ _ _ _ => trivial) n
        trivial w hw
      obtain ⟨C, v, s', found, term, -, value⟩ := visit_ret sem _ exit
      rw [visit_label] at block
      cases block.symm.trans found
      exact ⟨v, s'.regs, term, value⟩
  have found := (settled.block B hB).term
  rw [term] at found ⊢
  rcases found with constant | ⟨m, found⟩
  · unfold isConstantInt at constant
    split at constant
    · next bits c =>
      have truth : truthVal x = true ↔ c ≠ 0 := by
        rw [value]
        simp [eval, sem, constVal, truthVal]
      cases c with
      | zero =>
        have notOnly : ¬ ReturnsTrueOnly f := by
          intro only
          obtain ⟨bits', c, same, ne⟩ := only B hB _ term
          cases same
          exact ne rfl
        simp only [truth, DecidesAlone, notOnly, ne_eq, not_true_eq_false, iff_false, false_or,
          not_exists, not_and,
          Bool.not_eq_true]
      | succ c => simp [truth, DecidesAlone]
    · cases constant
  · cases v with
    | inst d =>
      have same := agrees d term
      have notOnly : ¬ ReturnsTrueOnly f := by
        intro only
        obtain ⟨bits', c, same, -⟩ := only B hB _ term
        cases same
      have here : Returned f d := ⟨B, hB, term⟩
      simp only [same, DecidesAlone, notOnly, false_or]
      cases yes : val d with
      | true => simpa using ⟨d, here, yes⟩
      | false =>
        simp only [Bool.false_eq_true, iff_false, not_exists, not_and, Bool.not_eq_true, false_or]
    | arg i => cases found
    | const c => cases found

/-- `count > 3`, by two early returns. -/
def earlyReturns : Function where
  args := []
  nextId := 5
  blocks :=
    [⟨0, [], [⟨0, .int 32, .load false (.const (.global 0))⟩,
        ⟨1, .int 1, .icmp .ugt (.inst 0) (.const (.int 32 3))⟩], 2, .condBr (.inst 1) 1 2⟩,
     ⟨1, [], [], 3, .ret (some (.const (.int 1 1)))⟩,
     ⟨2, [], [], 4, .ret (some (.const (.int 1 0)))⟩]

/-- All counts are the same. -/
def sameCount (n : Nat) : Memory := fun _ => .num n

def readBlock : Block :=
  ⟨0, [], [⟨0, .int 32, .load false (.const (.global 0))⟩,
    ⟨1, .int 32, .load false (.const (.getElementPtrExpr (.global 0) [.int 32 0, .int 32 1]))⟩,
    ⟨2, .int 1, .icmp .ugt (.inst 0) (.const (.int 32 1))⟩], 3, .condBr (.inst 2) 1 2⟩

def totalBlock : Block :=
  ⟨1, [], [⟨4, .int 32, .binary .add (.inst 0) (.inst 1)⟩,
    ⟨5, .int 1, .icmp .eq (.inst 4) (.const (.int 32 2))⟩], 6, .ret (some (.inst 5))⟩

def differentBlock : Block :=
  ⟨2, [], [⟨7, .int 1, .icmp .ne (.inst 0) (.const (.int 32 0))⟩,
    ⟨8, .int 1, .icmp .ne (.inst 1) (.const (.int 32 0))⟩,
    ⟨9, .int 32, .cast .zext (.int 1) (.inst 7)⟩, ⟨10, .int 32, .cast .zext (.int 1) (.inst 8)⟩,
    ⟨11, .int 32, .binary .add (.inst 9) (.inst 10)⟩,
    ⟨12, .int 1, .icmp .eq (.inst 11) (.const (.int 32 2))⟩], 13, .ret (some (.inst 12))⟩

/-- `if (count0 > 1) return count0 + count1 == 2; return matches(s0) + matches(s1) == 2`. -/
def totalOrDifferent : Function where
  args := []
  nextId := 14
  blocks := [readBlock, totalBlock, differentBlock]

/-- The comparison of a group of the first two counts. -/
def groupIs (x y : Word) : Node := .eq x y (.sums .both [.subsig 0, .subsig 1])

/-- The states behind the blocks. -/
def readState : LogicalCompiler.State :=
  ((State.initial.setNode 0 (some (.subsig 0))).setNode 1 (some (.subsig 1))).setNode 2
    (some (.gt 1 (.subsig 0)))

def totalState : LogicalCompiler.State :=
  ((readState.setNode 4 (some (.sums .sum [.subsig 0, .subsig 1]))).setNode 5
    (some (groupIs 2 maxWord))).pushOr (groupIs 2 maxWord)

def zextState : LogicalCompiler.State :=
  (((totalState.setNode 7 (some (.subsig 0))).setNode 8 (some (.subsig 1))).setNode 9
    (some (.sums .uniq [.subsig 0]))).setNode 10 (some (.sums .uniq [.subsig 1]))

def differentState : LogicalCompiler.State :=
  ((zextState.setNode 11 (some (.sums .uniq [.subsig 0, .subsig 1]))).setNode 12
    (some (groupIs 2 2))).pushOr (groupIs 2 2)

theorem totalOrDifferent_compiled : ∃ node,
    compile .inOrder (some 0) totalOrDifferent = .ok (differentState, some node) := by
  have read : processBB .inOrder 0 totalOrDifferent readBlock State.initial =
      .ok (readState, true) := rfl
  have total : processBB .inOrder 0 totalOrDifferent totalBlock readState =
      .ok (totalState, true) := by
    change (processAdd (lookup readState.map) (.inst 0) (.inst 1) >>= _) >>= _ = _
    rw [processAdd_pair rfl rfl]
    rfl
  have different : processBB .inOrder 0 totalOrDifferent differentBlock totalState =
      .ok (differentState, true) := by
    change (processAdd (lookup zextState.map) (.inst 9) (.inst 10) >>= _) >>= _ = _
    rw [processAdd_different rfl rfl]
    rfl
  have blocks : totalOrDifferent.blocks = [readBlock, totalBlock, differentBlock] := rfl
  simp only [compile, blocks, processBlocks, read, total, different, ok_bind, if_true]
  exact ⟨_, rfl⟩

/-- With one match each, both sums are 2. -/
theorem returns_unified_totalOrDifferent : ∃ s node B,
    compile .inOrder (some 0) totalOrDifferent = .ok (s, some node) ∧
      s.map 5 = some (some (groupIs 2 maxWord)) ∧ s.map 12 = some (some (groupIs 2 2)) ∧
      Returns totalOrDifferent (sameCount 1) B (.num 1) ∧
      ((Holds (fun _ => 1) node ↔ truthVal (.num 1) = true) ↔
        DecidesAlone totalOrDifferent (fun _ => true) B.term) := by
  have wf : totalOrDifferent.WellFormed := SsaChecks.wellFormed_of_checks (by decide)
  obtain ⟨node, compiled⟩ := totalOrDifferent_compiled
  have first : differentState.map 5 = some (some (groupIs 2 maxWord)) := rfl
  have second : differentState.map 12 = some (some (groupIs 2 2)) := rfl
  obtain ⟨B, reached, term⟩ : ∃ B, Returns totalOrDifferent (sameCount 1) B (.num 1) ∧
      B.term = .ret (some (.inst 12)) :=
    ⟨_, ⟨2, _, List.mem_cons_of_mem _ List.mem_cons_self, rfl, rfl⟩, rfl⟩
  have nodes : ∀ d n, Returned totalOrDifferent d → differentState.map d = some (some n) →
      n = groupIs 2 maxWord ∨ n = groupIs 2 2 := by
    rintro d n ⟨C, hC, returned⟩ found
    simp only [totalOrDifferent, List.mem_cons, List.not_mem_nil, or_false] at hC
    rcases hC with rfl | rfl | rfl <;> cases returned
    · exact .inl (Option.some.inj (Option.some.inj (found.symm.trans first)))
    · exact .inr (Option.some.inj (Option.some.inj (found.symm.trans second)))
  refine ⟨_, node, B, compiled, first, second, reached,
    returns_unified_iff wf compiled reached ?_ ?_ ?_⟩
  · intro d _
    rfl
  · intro d n returned found
    rcases nodes d n returned found with rfl | rfl <;> decide
  · intro d n returned found
    rcases nodes d n returned found with rfl | rfl <;> exact andKept_single fun cs same => by cases same

/-- With five matches the function returns true, but its node is FALSE. -/
theorem earlyReturns_false : SsaForm.Ssa earlyReturns ∧ earlyReturns.LoopFree ∧
    (∃ s, compile .inOrder (some 0) earlyReturns = .ok (s, some (.const false)) ∧
      s.map 1 = some (some (.gt 3 (.subsig 0)))) ∧
    Holds (fun _ => 5) (.gt 3 (.subsig 0)) ∧ ¬ Holds (fun _ => 5) (.const false) ∧
    ∃ B, Returns earlyReturns (sameCount 5) B (.num 1) := by
  have checked := SsaChecks.ssa_of_checks (f := earlyReturns) (by decide)
  refine ⟨checked.1, checked.2, ⟨_, rfl, rfl⟩, by decide, by decide,
    ⟨1, [], [], 3, .ret (some (.const (.int 1 1)))⟩, ?_⟩
  exact ⟨2, _, List.mem_cons_of_mem _ List.mem_cons_self, rfl, rfl⟩

end LogicalReturns
