import ClamBC.PhiEliminationSsa
import ClamBC.SetVirusName
import Mathlib.Algebra.Order.Ring.Int

/-!
# Widening phis to 64 bits

A phi of an integer type other than `i64` is replaced by one of type `i64`. A
`ConstantInt` that it lists becomes the `i64` constant of the same unsigned value;
every other value it lists is cast in front of the terminator of the block it comes
from, one cast for each entry. A cast back to the old type stands in front of the
first instruction that is not a phi, and all uses of the phi then read that cast.

The phis are collected first and converted one after another, so the function in
between has both kinds. Blocks have no landing pads here.
-/

namespace ExtendPhis

open Ir PhiElimination SsaForm SetVirusName

/-- The instruction numbers that one conversion uses. -/
def wideId (f : Function) : Nat := f.nextId

def truncId (f : Function) : Nat := f.nextId + 1

def castId (f : Function) (k : Nat) : Nat := f.nextId + 2 + k

def isConstantInt : Value → Bool
  | .const (.int _ _) => true
  | _ => false

/-- The zero-extended value, or the largest 64-bit number if that is smaller. -/
def getLimitedValue (value : Nat) : Nat := min value (2 ^ 64 - 1)

/-- `CastInst::CreateIntegerCast` with `isSigned`. -/
def createIntegerCast (id : Nat) (value : Value) (src dst : Nat) : Inst :=
  ⟨id, .int dst,
    .cast (if src = dst then .bitCast else if dst < src then .trunc else .sext) (.int src) value⟩

/-- What the new phi lists for the `k`-th entry of the old one. -/
def wideValue (f : Function) (k : Nat) : Value → Value
  | .const (.int _ value) => .const (.int 64 (getLimitedValue value))
  | _ => .inst (castId f k)

def widePhi (f : Function) (p : Phi) : Phi :=
  ⟨wideId f, .int 64, p.incoming.mapIdx fun k e => (wideValue f k e.1, e.2)⟩

/-- The casts of the values that come from one block, in the order of the phi's list. -/
def phiCasts (f : Function) (w : Nat) (l : Label) : Nat → List (Value × Label) → List Inst
  | _, [] => []
  | k, (v, b) :: rest =>
    if b = l ∧ isConstantInt v = false then
      createIntegerCast (castId f k) v w 64 :: phiCasts f w l (k + 1) rest
    else phiCasts f w l (k + 1) rest

def phiTrunc (f : Function) (w : Nat) : Inst :=
  createIntegerCast (truncId f) (.inst (wideId f)) 64 w

/-- The new phi stands in front of the old one, the cast back in front of the body and the
casts of the listed values in front of the terminator. -/
def insertIntoBlock (f : Function) (p : Phi) (w : Nat) (B : Block) : Block :=
  { B with
    phis := B.phis.flatMap fun q => if q.id = p.id then [widePhi f p, q] else [q]
    body := (if p.id ∈ B.phis.map Phi.id then [phiTrunc f w] else []) ++ B.body ++
      phiCasts f w B.label 0 p.incoming }

def convertBlock (f : Function) (p : Phi) (w : Nat) (B : Block) : Block :=
  erasePhi p (renameBlock p.id (truncId f) (ExtendPhis.insertIntoBlock f p w B))

/-- A phi of an integer type other than the destination type, with its width. -/
def phiToConvert (f : Function) (id : Nat) : Option (Phi × Nat) :=
  (findPhi f id).bind fun p =>
    match p.ty with
    | .int w => if w = 64 then none else some (p, w)
    | _ => none

def convertPHI (f : Function) (id : Nat) : Function :=
  match phiToConvert f id with
  | none => f
  | some (p, w) =>
    { f with
      blocks := f.blocks.map (convertBlock f p w)
      nextId := f.nextId + 2 + p.incoming.length }

def convertAll (f : Function) (phis : List Nat) : Function := phis.foldl convertPHI f

def convertPHIs (f : Function) : Function := convertAll f (phiIds f)

/-- Where the value of an original instruction is found after one conversion. -/
def moved (f : Function) (id i : Nat) : Nat :=
  if i = id ∧ (phiToConvert f id).isSome then truncId f else i

def relocated : Function → List Nat → Nat → Nat
  | _, [], i => i
  | f, p :: ps, i => relocated (convertPHI f p) ps (moved f p i)

/-- A block is listed twice with a value that is not a `ConstantInt`. -/
def RepeatedCast (p : Phi) : Prop :=
  ∃ (j k : Nat) (v u : Value) (l : Label), j ≠ k ∧ p.incoming[j]? = some (v, l) ∧
    p.incoming[k]? = some (u, l) ∧
    isConstantInt v = false

/-! What the verifier asks of integer types, as far as instructions record them. -/

section Types
variable (constBits : Const → Nat → Prop)

/-- The value is an integer of the given width. `constBits` gives the widths of the constants
that do not record theirs. -/
def HasBits (f : Function) : Value → Nat → Prop
  | .inst i, w => ∃ B ∈ f.blocks, (i, Ty.int w) ∈ B.defs
  | .arg i, w => f.args[i]? = some (.int w)
  | .const (.int bits value), w => bits = w ∧ value < 2 ^ w
  | .const c, w => constBits c w

/-- The width relation of the casts between integers. -/
def castWidths : CastOp → Nat → Nat → Prop
  | .trunc, src, dst => dst < src
  | .zext, src, dst => src < dst
  | .sext, src, dst => src < dst
  | .bitCast, src, dst => src = dst
  | _, _, _ => False

structure WellTyped (f : Function) : Prop where
  phis : ∀ B ∈ f.blocks, ∀ p ∈ B.phis, ∀ w, p.ty = .int w →
    ∀ v l, (v, l) ∈ p.incoming → HasBits constBits f v w
  casts : ∀ B ∈ f.blocks, ∀ i ∈ B.body, ∀ op m v, i.op = .cast op (.int m) v →
    HasBits constBits f v m ∧ ∀ n, i.ty = .int n → castWidths op m n

end Types

/-- One phi of the function that is widened. -/
structure Narrow (f : Function) (p : Phi) (w : Nat) : Prop where
  rem : Removable f p
  ty : p.ty = .int w
  lt : w < 64

section Conversion
variable {f : Function} {p : Phi} {w : Nat}

theorem wideValue_cases (f : Function) (k : Nat) (v : Value) :
    (∃ bits value, v = .const (.int bits value) ∧
      wideValue f k v = .const (.int 64 (getLimitedValue value))) ∨
      (isConstantInt v = false ∧ wideValue f k v = .inst (castId f k)) := by
  unfold wideValue isConstantInt
  split
  · exact Or.inl ⟨_, _, rfl, rfl⟩
  · exact Or.inr ⟨rfl, rfl⟩

theorem isConstantInt_rename (old new : Nat) (v : Value) :
    isConstantInt (renameValue old new v) = isConstantInt v := by
  cases v <;> rfl

theorem mem_widePhi {v : Value} {l : Label} :
    (v, l) ∈ (widePhi f p).incoming ↔ ∃ k u, p.incoming[k]? = some (u, l) ∧
      v = wideValue f k u := by
  simp only [widePhi, List.mem_mapIdx, Prod.mk.injEq]
  constructor
  · rintro ⟨k, short, rfl, rfl⟩
    exact ⟨k, p.incoming[k].1, by rw [List.getElem?_eq_getElem short], rfl⟩
  · rintro ⟨k, u, at_k, rfl⟩
    obtain ⟨short, here⟩ := List.getElem?_eq_some_iff.mp at_k
    exact ⟨k, short, by rw [here], by rw [here]⟩

/-- The listed constants and casts are not the phi that is replaced. -/
theorem renamePhi_wide (hp : p.id < f.nextId) :
    renamePhi p.id (truncId f) (widePhi f p) = widePhi f p := by
  have same : ∀ k v, renameValue p.id (truncId f) (wideValue f k v) = wideValue f k v := by
    intro k v
    rcases wideValue_cases f k v with ⟨_, _, -, wide⟩ | ⟨-, wide⟩ <;> rw [wide]
    · rfl
    · have ne : castId f k ≠ p.id := by unfold castId; omega
      simp [renameValue, ne]
  have kept : (widePhi f p).incoming.map (fun e => (renameValue p.id (truncId f) e.1, e.2)) =
      (widePhi f p).incoming := by
    refine (List.map_congr_left fun e he => ?_).trans (List.map_id _)
    obtain ⟨k, u, -, value⟩ := mem_widePhi.mp he
    rw [value, same, ← value]
    rfl
  rw [renamePhi, kept]

/-- The phis of a rewritten block: the wide one in the place of the old one. -/
def convertedPhi (f : Function) (p q : Phi) : Phi :=
  if q.id = p.id then widePhi f p else renamePhi p.id (truncId f) q

theorem convertBlock_phis (hp : p.id < f.nextId) (B : Block) :
    (convertBlock f p w B).phis = B.phis.map (convertedPhi f p) := by
  have ne : wideId f ≠ p.id := by unfold wideId; omega
  simp only [convertBlock, erasePhi, renameBlock, ExtendPhis.insertIntoBlock]
  generalize B.phis = ps
  induction ps with
  | nil => rfl
  | cons q ps ih =>
    rw [List.flatMap_cons, List.map_append, List.filter_append, ih, List.map_cons]
    by_cases here : q.id = p.id
    · simp [here, convertedPhi, renamePhi_wide hp]
      simp [widePhi, renamePhi, here, ne]
    · simp [here, convertedPhi, renamePhi]

/-- The trunc stands only in the block of the phi. -/
def prologue (f : Function) (p : Phi) (w : Nat) (B : Block) : List Inst :=
  if p.id ∈ B.phis.map Phi.id then [phiTrunc f w] else []

theorem convertBlock_body (B : Block) :
    (convertBlock f p w B).body = (ExtendPhis.prologue f p w B).map (renameInst p.id (truncId f)) ++
      B.body.map (renameInst p.id (truncId f)) ++
      (phiCasts f w B.label 0 p.incoming).map (renameInst p.id (truncId f)) := by
  simp [convertBlock, erasePhi, renameBlock, ExtendPhis.insertIntoBlock, ExtendPhis.prologue]

theorem convertBlock_label (B : Block) : (convertBlock f p w B).label = B.label := rfl

theorem convertBlock_successors (B : Block) :
    (convertBlock f p w B).term.successors = B.term.successors :=
  Term.successors_map _ B.term

theorem mem_phiCasts {l : Label} {k : Nat} {entries : List (Value × Label)} {i : Inst} :
    i ∈ phiCasts f w l k entries ↔ ∃ j v, entries[j]? = some (v, l) ∧ isConstantInt v = false ∧
      i = createIntegerCast (castId f (k + j)) v w 64 := by
  induction entries generalizing k with
  | nil => simp [phiCasts]
  | cons entry entries ih =>
    obtain ⟨v, b⟩ := entry
    have later : i ∈ phiCasts f w l (k + 1) entries ↔
        ∃ j u, ((v, b) :: entries)[j + 1]? = some (u, l) ∧
        isConstantInt u = false ∧ i = createIntegerCast (castId f (k + (j + 1))) u w 64 := by
      rw [ih]
      simp only [List.getElem?_cons_succ, Nat.add_assoc, Nat.add_comm 1]
    unfold phiCasts
    split_ifs with here
    · rw [List.mem_cons, later]
      constructor
      · rintro (rfl | ⟨j, rest⟩)
        · exact ⟨0, v, by simp [here.1], here.2, rfl⟩
        · exact ⟨j + 1, rest⟩
      · rintro ⟨j | j, u, at_j, other, rfl⟩
        · cases at_j
          exact Or.inl rfl
        · exact Or.inr ⟨j, u, at_j, other, rfl⟩
    · rw [later]
      constructor
      · rintro ⟨j, rest⟩
        exact ⟨j + 1, rest⟩
      · rintro ⟨j | j, u, at_j, other, rfl⟩
        · cases at_j
          exact absurd ⟨rfl, other⟩ here
        · exact ⟨j, u, at_j, other, rfl⟩

/-! The rewritten function is well formed if no block is listed twice with a cast. -/

/-- The instructions that a conversion adds to a block. -/
inductive Added (f : Function) (p : Phi) (B : Block) : Nat → Prop
  | wide (here : p.id ∈ B.phis.map Phi.id) : Added f p B (wideId f)
  | trunc (here : p.id ∈ B.phis.map Phi.id) : Added f p B (truncId f)
  | cast {k : Nat} {v : Value} (entry : p.incoming[k]? = some (v, B.label)) :
      Added f p B (castId f k)

theorem mem_trunc {B : Block} {i : Inst} :
    i ∈ ExtendPhis.prologue f p w B ↔ i = phiTrunc f w ∧ p.id ∈ B.phis.map Phi.id := by
  unfold ExtendPhis.prologue
  split_ifs with here <;> simp [here]

theorem mem_convertBlock_phis (hp : p.id < f.nextId) {B : Block} {q : Phi} :
    q ∈ (convertBlock f p w B).phis ↔ ∃ r ∈ B.phis, convertedPhi f p r = q := by
  rw [convertBlock_phis hp, List.mem_map]

theorem convertBlock_ids (hp : p.id < f.nextId) (B : Block) : (convertBlock f p w B).ids =
    (B.phis.map Phi.id).map (fun i => if i = p.id then wideId f else i) ++
      ((ExtendPhis.prologue f p w B).map Inst.id ++ B.body.map Inst.id ++
        (phiCasts f w B.label 0 p.incoming).map Inst.id) ++ [B.termId] := by
  have renamed : Inst.id ∘ renameInst p.id (truncId f) = Inst.id := rfl
  have phis : Phi.id ∘ convertedPhi f p = (fun i => if i = p.id then wideId f else i) ∘ Phi.id := by
    funext q
    simp only [Function.comp, convertedPhi]
    split_ifs <;> rfl
  simp only [Block.ids, convertBlock_phis hp, convertBlock_body, List.map_append, List.map_map,
    renamed, phis]
  rfl

theorem mem_convertBlock_ids (hp : p.id < f.nextId) {B : Block} {i : Nat}
    (h : i ∈ (convertBlock f p w B).ids) : i ∈ B.ids ∨ Added f p B i := by
  rw [convertBlock_ids hp] at h
  simp only [List.mem_append, or_assoc] at h
  simp only [Block.ids, List.mem_append]
  rcases h with h | h | h | h | h
  · obtain ⟨j, hj, rfl⟩ := List.mem_map.mp h
    split_ifs with here
    · exact Or.inr (.wide (here ▸ hj))
    · exact Or.inl (Or.inl (Or.inl hj))
  · obtain ⟨j, hj, rfl⟩ := List.mem_map.mp h
    obtain ⟨rfl, here⟩ := mem_trunc.mp hj
    exact Or.inr (.trunc here)
  · exact Or.inl (Or.inl (Or.inr h))
  · obtain ⟨j, hj, rfl⟩ := List.mem_map.mp h
    obtain ⟨k, v, entry, -, rfl⟩ := mem_phiCasts.mp hj
    rw [Nat.zero_add]
    exact Or.inr (.cast entry)
  · exact Or.inl (Or.inr h)

theorem Added.new {B : Block} {i : Nat} (h : Added f p B i) : f.nextId ≤ i := by
  cases h with
  | wide => exact Nat.le_refl _
  | trunc => exact Nat.le_succ _
  | cast => unfold castId; omega

theorem Added.lt {B : Block} {i : Nat} (h : Added f p B i) :
    i < f.nextId + 2 + p.incoming.length := by
  cases h with
  | wide => unfold wideId; omega
  | trunc => unfold truncId; omega
  | cast entry =>
    obtain ⟨short, -⟩ := List.getElem?_eq_some_iff.mp entry
    unfold castId
    omega

theorem Added.unique (wf : f.WellFormed) {A B : Block} (hA : A ∈ f.blocks) (hB : B ∈ f.blocks)
    {i : Nat} (iA : Added f p A i) (iB : Added f p B i) : A = B := by
  generalize hi : i = j at iB
  have byLabel : A.label = B.label → A = B := List.inj_on_of_nodup_map wf.labels hA hB
  have byPhi : p.id ∈ A.phis.map Phi.id → p.id ∈ B.phis.map Phi.id → A = B := by
    intro here here'
    obtain ⟨q, hq, same⟩ := List.mem_map.mp here
    obtain ⟨r, hr, same'⟩ := List.mem_map.mp here'
    exact (wf.phi_unique hA hB hq hr (same.trans same'.symm)).1
  cases iA with
  | wide here =>
    cases iB with
    | wide here' => exact byPhi here here'
    | trunc => simp only [wideId, truncId] at hi; omega
    | cast => simp only [wideId, castId] at hi; omega
  | trunc here =>
    cases iB with
    | wide => simp only [wideId, truncId] at hi; omega
    | trunc here' => exact byPhi here here'
    | cast => simp only [truncId, castId] at hi; omega
  | @cast k v entry =>
    cases iB with
    | wide => simp only [wideId, castId] at hi; omega
    | trunc => simp only [truncId, castId] at hi; omega
    | @cast k' v' entry' =>
      have same : k = k' := by
        simp only [castId] at hi
        omega
      subst same
      have both := entry.symm.trans entry'
      simp only [Option.some.injEq, Prod.mk.injEq] at both
      exact byLabel both.2

theorem phiCasts_ids_nodup (l : Label) (k : Nat) (entries : List (Value × Label)) :
    ((phiCasts f w l k entries).map Inst.id).Nodup := by
  induction entries generalizing k with
  | nil => exact List.nodup_nil
  | cons entry entries ih =>
    obtain ⟨v, b⟩ := entry
    unfold phiCasts
    split_ifs
    · rw [List.map_cons, List.nodup_cons]
      refine ⟨?_, ih (k + 1)⟩
      intro again
      obtain ⟨i, hi, same⟩ := List.mem_map.mp again
      obtain ⟨j, u, -, -, rfl⟩ := mem_phiCasts.mp hi
      simp only [createIntegerCast, castId] at same
      omega
    · exact ih (k + 1)

theorem convertBlock_ids_nodup (wf : f.WellFormed) (hp : p.id < f.nextId) {B : Block}
    (hB : B ∈ f.blocks) : (convertBlock f p w B).ids.Nodup := by
  have oldLt : ∀ i ∈ B.ids, i < f.nextId := wf.fresh B hB
  have old := wf.block_ids_nodup hB
  have own : B.ids = B.phis.map Phi.id ++ (B.body.map Inst.id ++ [B.termId]) :=
    List.append_assoc _ _ _
  rw [own] at old oldLt
  obtain ⟨phis, rest, apart⟩ := List.nodup_append.mp old
  have phisLt := fun i hi => oldLt i (List.mem_append_left _ hi)
  have restLt := fun i hi => oldLt i (List.mem_append_right _ hi)
  have kept : ((B.phis.map Phi.id).map (fun i => if i = p.id then wideId f else i) ++
      (B.body.map Inst.id ++ [B.termId])).Nodup := by
    refine List.nodup_append.mpr ⟨List.Nodup.map_on ?_ phis, rest, ?_⟩
    · intro i hi j hj same
      have := phisLt i hi
      have := phisLt j hj
      simp only [wideId] at same
      split_ifs at same <;> omega
    · intro i hi j hj same
      obtain ⟨k, hk, rfl⟩ := List.mem_map.mp hi
      have := restLt j hj
      dsimp only [wideId] at same
      split_ifs at same
      · omega
      · exact apart k hk j hj same
  have keptLe : ∀ i ∈ (B.phis.map Phi.id).map (fun i => if i = p.id then wideId f else i) ++
      (B.body.map Inst.id ++ [B.termId]), i < truncId f := by
    intro i hi
    unfold truncId
    rcases List.mem_append.mp hi with hi | hi
    · obtain ⟨k, hk, rfl⟩ := List.mem_map.mp hi
      have := phisLt k hk
      simp only [wideId]
      split_ifs <;> omega
    · have := restLt i hi
      omega
  have added : ((ExtendPhis.prologue f p w B).map Inst.id ++
      (phiCasts f w B.label 0 p.incoming).map Inst.id).Nodup := by
    refine List.nodup_append.mpr ⟨?_, phiCasts_ids_nodup _ _ _, ?_⟩
    · unfold ExtendPhis.prologue
      split_ifs <;> simp
    · intro i hi j hj same
      obtain ⟨a, ha, rfl⟩ := List.mem_map.mp hi
      obtain ⟨b, hb, rfl⟩ := List.mem_map.mp hj
      obtain ⟨rfl, -⟩ := mem_trunc.mp ha
      obtain ⟨k, v, -, -, rfl⟩ := mem_phiCasts.mp hb
      simp only [phiTrunc, createIntegerCast, truncId, castId] at same
      omega
  have addedNew : ∀ i ∈ (ExtendPhis.prologue f p w B).map Inst.id ++
      (phiCasts f w B.label 0 p.incoming).map Inst.id, truncId f ≤ i := by
    intro i hi
    rcases List.mem_append.mp hi with hi | hi
    · obtain ⟨a, ha, rfl⟩ := List.mem_map.mp hi
      obtain ⟨rfl, -⟩ := mem_trunc.mp ha
      exact Nat.le_refl _
    · obtain ⟨b, hb, rfl⟩ := List.mem_map.mp hi
      obtain ⟨k, v, -, -, rfl⟩ := mem_phiCasts.mp hb
      simp only [createIntegerCast, truncId, castId]
      omega
  have both := List.nodup_append.mpr ⟨kept, added, fun i hi j hj same => by
    have := keptLe i hi
    have := addedNew j hj
    omega⟩
  refine (List.Perm.nodup_iff ?_).mpr both
  rw [convertBlock_ids hp, List.perm_iff_count]
  intro i
  simp only [List.count_append]
  omega

theorem def_converted (hp : p.id < f.nextId) {B : Block} {i : Nat} {ty : Ty} (h : (i, ty) ∈ B.defs)
    (notPhi : i ≠ p.id) : (i, ty) ∈ (convertBlock f p w B).defs := by
  simp only [Block.defs, List.mem_append, List.mem_map, Prod.mk.injEq] at h ⊢
  rcases h with ⟨q, hq, rfl, rfl⟩ | ⟨j, hj, rfl, rfl⟩
  · refine Or.inl ⟨renamePhi p.id (truncId f) q, ?_, rfl, rfl⟩
    exact (mem_convertBlock_phis hp).mpr ⟨q, hq, if_neg notPhi⟩
  · refine Or.inr ⟨renameInst p.id (truncId f) j, ?_, rfl, rfl⟩
    rw [convertBlock_body, List.mem_append, List.mem_append]
    exact Or.inl (Or.inr (List.mem_map_of_mem hj))

theorem wide_def (hp : p.id < f.nextId) {B : Block} (here : p ∈ B.phis) :
    (wideId f, Ty.int 64) ∈ (convertBlock f p w B).defs := by
  simp only [Block.defs, List.mem_append, List.mem_map, Prod.mk.injEq]
  exact Or.inl ⟨widePhi f p, (mem_convertBlock_phis hp).mpr ⟨p, here, if_pos rfl⟩, rfl, rfl⟩

theorem trunc_def {B : Block} (here : p ∈ B.phis) :
    (truncId f, Ty.int w) ∈ (convertBlock f p w B).defs := by
  simp only [Block.defs, List.mem_append, List.mem_map, Prod.mk.injEq]
  refine Or.inr ⟨renameInst p.id (truncId f) (phiTrunc f w), ?_, rfl, rfl⟩
  rw [convertBlock_body, List.mem_append, List.mem_append]
  exact Or.inl (Or.inl (List.mem_map_of_mem (mem_trunc.mpr ⟨rfl, List.mem_map_of_mem here⟩)))

theorem cast_def {B : Block} {k : Nat} {v : Value} (entry : p.incoming[k]? = some (v, B.label))
    (other : isConstantInt v = false) : (castId f k, Ty.int 64) ∈ (convertBlock f p w B).defs := by
  simp only [Block.defs, List.mem_append, List.mem_map, Prod.mk.injEq]
  refine Or.inr ⟨renameInst p.id (truncId f) (createIntegerCast (castId f k) v w 64), ?_, rfl, rfl⟩
  rw [convertBlock_body, List.mem_append, List.mem_append]
  refine Or.inr (List.mem_map_of_mem (mem_phiCasts.mpr ⟨k, v, entry, other, ?_⟩))
  rw [Nat.zero_add]

/-- What a rewritten block reads: the wide phi, the casts, constants, and what was read before. -/
theorem mem_convertBlock_uses (hp : p.id < f.nextId) {B : Block} {v : Value}
    (h : v ∈ (convertBlock f p w B).uses) :
    (p.id ∈ B.phis.map Phi.id ∧ v = .inst (wideId f)) ∨
      (∃ k u l, p.incoming[k]? = some (u, l) ∧ v = wideValue f k u) ∨
      ∃ u, (u ∈ B.uses ∨ ∃ l, (u, l) ∈ p.incoming) ∧ v = renameValue p.id (truncId f) u := by
  simp only [Block.uses, List.mem_append, List.mem_flatMap, List.mem_map] at h
  rcases h with (⟨q, hq, e, he, rfl⟩ | ⟨i, hi, hv⟩) | hv
  · obtain ⟨r, hr, rfl⟩ := (mem_convertBlock_phis hp).mp hq
    unfold convertedPhi at he
    split_ifs at he
    · obtain ⟨k, u, entry, value⟩ := mem_widePhi.mp he
      exact Or.inr (Or.inl ⟨k, u, e.2, entry, value⟩)
    · obtain ⟨e', he', rfl⟩ := List.mem_map.mp he
      exact Or.inr (Or.inr ⟨e'.1, Or.inl (phi_use hr he'), rfl⟩)
  · rw [convertBlock_body, List.mem_append, List.mem_append] at hi
    rcases hi with (hi | hi) | hi
    all_goals
      obtain ⟨j, hj, rfl⟩ := List.mem_map.mp hi
      simp only [renameInst, Op.operands_map, List.mem_map] at hv
      obtain ⟨u, hu, rfl⟩ := hv
    · obtain ⟨rfl, here⟩ := mem_trunc.mp hj
      have ne : wideId f ≠ p.id := by unfold wideId; omega
      rw [List.mem_singleton.mp hu]
      exact Or.inl ⟨here, by simp [renameValue, ne]⟩
    · exact Or.inr (Or.inr ⟨u, Or.inl (inst_use hj hu), rfl⟩)
    · obtain ⟨k, x, entry, -, rfl⟩ := mem_phiCasts.mp hj
      rw [List.mem_singleton.mp hu]
      exact Or.inr (Or.inr ⟨x, Or.inr ⟨_, List.mem_of_getElem? entry⟩, rfl⟩)
  · simp only [convertBlock, erasePhi, renameBlock, ExtendPhis.insertIntoBlock, Term.operands_map,
      List.mem_map] at hv
    obtain ⟨u, hu, rfl⟩ := hv
    exact Or.inr (Or.inr ⟨u, Or.inl (term_use hu), rfl⟩)

section Found
variable (found : phiToConvert f p.id = some (p, w))
include found

theorem convertPHI_blocks : (convertPHI f p.id).blocks = f.blocks.map (convertBlock f p w) := by
  simp only [convertPHI, found]

theorem convertPHI_nextId : (convertPHI f p.id).nextId = f.nextId + 2 + p.incoming.length := by
  simp only [convertPHI, found]

theorem convertPHI_args : (convertPHI f p.id).args = f.args := by
  simp only [convertPHI, found]

theorem convertPHI_entry : (convertPHI f p.id).entry = f.entry.map (convertBlock f p w) :=
  entry_rewritten (convertPHI_blocks found)

theorem converted_mem {B : Block} (hB : B ∈ f.blocks) :
    convertBlock f p w B ∈ (convertPHI f p.id).blocks := by
  rw [convertPHI_blocks found]
  exact List.mem_map_of_mem hB

theorem of_converted_mem {B : Block} (hB : B ∈ (convertPHI f p.id).blocks) :
    ∃ A ∈ f.blocks, convertBlock f p w A = B := by
  rw [convertPHI_blocks found] at hB
  exact List.mem_map.mp hB

omit found in
/-- The listed values have definitions, in the blocks they come from. -/
theorem incoming_defined (narrow : Narrow f p w) {k : Nat} {u : Value} {l : Label}
    (entry : p.incoming[k]? = some (u, l)) (other : isConstantInt u = false) :
    ∃ B ∈ f.blocks, B.label = l ∧ (castId f k, Ty.int 64) ∈ (convertBlock f p w B).defs := by
  obtain ⟨D, hD, hp⟩ := narrow.rem.member
  obtain ⟨A, hA, rfl, -⟩ := narrow.rem.wf.preds D hD p hp u l (List.mem_of_getElem? entry)
  exact ⟨A, hA, rfl, cast_def entry other⟩

theorem convertPHI_uses (narrow : Narrow f p w) : ∀ B ∈ (convertPHI f p.id).blocks, ∀ i,
    Value.inst i ∈ B.uses → ∃ A ∈ (convertPHI f p.id).blocks, ∃ ty, (i, ty) ∈ A.defs ∧
      ty.isVoid = false := by
  have wf := narrow.rem.wf
  obtain ⟨D, hD, hp⟩ := narrow.rem.member
  intro B hB i hi
  obtain ⟨A, hA, rfl⟩ := of_converted_mem found hB
  rcases mem_convertBlock_uses narrow.rem.id_lt hi with ⟨-, same⟩ | ⟨k, u, l, entry, same⟩
    | ⟨u, hu, same⟩
  · cases same
    exact ⟨_, converted_mem found hD, _, wide_def narrow.rem.id_lt hp, rfl⟩
  · rcases wideValue_cases f k u with ⟨_, _, -, wide⟩ | ⟨other, wide⟩ <;> cases same.trans wide
    obtain ⟨C, hC, -, here⟩ := incoming_defined narrow entry other
    exact ⟨_, converted_mem found hC, _, here, rfl⟩
  · cases u with
    | inst j =>
      have defined : ∃ C ∈ f.blocks, ∃ ty, (j, ty) ∈ C.defs ∧ ty.isVoid = false := by
        rcases hu with hu | ⟨l, hu⟩
        · exact wf.uses A hA j hu
        · exact wf.uses D hD j (phi_use hp hu)
      by_cases isPhi : j = p.id
      · simp only [renameValue, if_pos isPhi, Value.inst.injEq] at same
        exact ⟨_, converted_mem found hD, .int w, same ▸ trunc_def hp, rfl⟩
      · obtain ⟨C, hC, ty, here, value⟩ := defined
        simp only [renameValue, if_neg isPhi, Value.inst.injEq] at same
        exact ⟨_, converted_mem found hC, ty,
          same ▸ def_converted narrow.rem.id_lt here isPhi, value⟩
    | arg j => cases same
    | const c => cases same

theorem convertPHI_argUses (narrow : Narrow f p w) : ∀ B ∈ (convertPHI f p.id).blocks, ∀ i,
    Value.arg i ∈ B.uses → i < (convertPHI f p.id).args.length := by
  have wf := narrow.rem.wf
  obtain ⟨D, hD, hp⟩ := narrow.rem.member
  intro B hB i hi
  obtain ⟨A, hA, rfl⟩ := of_converted_mem found hB
  rw [convertPHI_args found]
  rcases mem_convertBlock_uses narrow.rem.id_lt hi with ⟨-, same⟩ | ⟨k, u, l, entry, same⟩
    | ⟨u, hu, same⟩
  · cases same
  · rcases wideValue_cases f k u with ⟨_, _, -, wide⟩ | ⟨-, wide⟩ <;> cases same.trans wide
  · cases u with
    | inst j => cases same
    | arg j =>
      cases same
      rcases hu with hu | ⟨l, hu⟩
      · exact wf.argUses A hA i hu
      · exact wf.argUses D hD i (phi_use hp hu)
    | const c => cases same

omit found in
/-- Which body instruction a rewritten body instruction comes from. -/
theorem mem_converted_body {B : Block} {i : Inst} (hi : i ∈ (convertBlock f p w B).body) :
    (∃ op src v, i.op = .cast op src v ∧ (i.ty = .int w ∨ i.ty = .int 64)) ∨
      ∃ j ∈ B.body, i = renameInst p.id (truncId f) j := by
  rw [convertBlock_body, List.mem_append, List.mem_append] at hi
  rcases hi with (hi | hi) | hi <;> obtain ⟨j, hj, rfl⟩ := List.mem_map.mp hi
  · obtain ⟨rfl, -⟩ := mem_trunc.mp hj
    exact Or.inl ⟨_, _, _, rfl, Or.inl rfl⟩
  · exact Or.inr ⟨j, hj, rfl⟩
  · obtain ⟨k, v, -, -, rfl⟩ := mem_phiCasts.mp hj
    exact Or.inl ⟨_, _, _, rfl, Or.inr rfl⟩

end Found

theorem Narrow.phi_cases (narrow : Narrow f p w) {D : Block} (hD : D ∈ f.blocks) {r : Phi}
    (hr : r ∈ D.phis) :
    (r = p ∧ convertedPhi f p r = widePhi f p) ∨
      (r.id ≠ p.id ∧ convertedPhi f p r = renamePhi p.id (truncId f) r) := by
  by_cases here : r.id = p.id
  · obtain ⟨P, hP, member⟩ := narrow.rem.member
    exact Or.inl ⟨(narrow.rem.wf.phi_unique hD hP hr member here).2, if_pos here⟩
  · exact Or.inr ⟨here, if_neg here⟩

/-- The predecessors are listed as before. -/
theorem Narrow.labels_kept (narrow : Narrow f p w) {D : Block} (hD : D ∈ f.blocks) {r : Phi}
    (hr : r ∈ D.phis) :
    (convertedPhi f p r).incoming.map Prod.snd = r.incoming.map Prod.snd := by
  rcases narrow.phi_cases hD hr with ⟨rfl, same⟩ | ⟨-, same⟩
  · rw [same]
    refine List.ext_getElem? fun k => ?_
    simp only [widePhi, List.getElem?_map, List.getElem?_mapIdx, Option.map_map, Function.comp_def]
  · rw [same, renamePhi, List.map_map]
    rfl

theorem mem_labels {q : Phi} {l : Label} :
    l ∈ q.incoming.map Prod.snd ↔ ∃ v, (v, l) ∈ q.incoming := by
  simp

/-- The wide phi lists one value for each block if no block is listed twice with a cast. -/
theorem widePhi_agree (narrow : Narrow f p w) (single : ¬ RepeatedCast p) {l : Label} {u v : Value}
    (hu : (u, l) ∈ (widePhi f p).incoming) (hv : (v, l) ∈ (widePhi f p).incoming) : u = v := by
  obtain ⟨j, a, at_j, rfl⟩ := mem_widePhi.mp hu
  obtain ⟨k, b, at_k, rfl⟩ := mem_widePhi.mp hv
  obtain rfl := narrow.rem.agree (List.mem_of_getElem? at_j) (List.mem_of_getElem? at_k)
  rcases wideValue_cases f j a with ⟨_, _, rfl, -⟩ | ⟨other, -⟩
  · rfl
  · by_cases same : j = k
    · rw [same]
    · exact absurd ⟨j, k, a, a, l, same, at_j, at_k, other⟩ single

theorem convertPHI_wellFormed (found : phiToConvert f p.id = some (p, w)) (narrow : Narrow f p w)
    (single : ¬ RepeatedCast p) : (convertPHI f p.id).WellFormed := by
  have wf := narrow.rem.wf
  have hp := narrow.rem.id_lt
  have blocks := convertPHI_blocks found
  have entryOf : ∀ {B : Block}, (convertPHI f p.id).entry = some B →
      ∃ E, f.entry = some E ∧ convertBlock f p w E = B := by
    intro B hB
    rw [convertPHI_entry found] at hB
    exact Option.map_eq_some_iff.mp hB
  constructor
  case labels =>
    have same : Block.label ∘ convertBlock f p w = Block.label := rfl
    rw [blocks, List.map_map, same]
    exact wf.labels
  case ids =>
    rw [blocks]
    exact ids_nodup_rewritten wf (fun B hB => convertBlock_ids_nodup wf hp hB)
      (fun B _ i => mem_convertBlock_ids hp) (fun B i added => added.new)
      (fun A hA B hB i iA iB => iA.unique wf hA hB iB)
  case fresh =>
    intro B hB i hi
    obtain ⟨A, hA, rfl⟩ := of_converted_mem found hB
    rw [convertPHI_nextId found]
    rcases mem_convertBlock_ids hp hi with hi | hi
    · have := wf.fresh A hA i hi
      omega
    · exact hi.lt
  case uses => exact convertPHI_uses found narrow
  case argUses => exact convertPHI_argUses found narrow
  case phiTypes =>
    intro B hB q hq
    obtain ⟨A, hA, rfl⟩ := of_converted_mem found hB
    obtain ⟨r, hr, rfl⟩ := (mem_convertBlock_phis hp).mp hq
    unfold convertedPhi
    split_ifs
    · rfl
    · exact wf.phiTypes A hA r hr
  case storeTypes =>
    intro B hB i hi v a op
    obtain ⟨A, hA, rfl⟩ := of_converted_mem found hB
    rcases mem_converted_body hi with ⟨c, src, u, cast, -⟩ | ⟨j, hj, rfl⟩
    · cases cast.symm.trans op
    · obtain ⟨x, b, old⟩ : ∃ x b, j.op = .store x b := by
        cases h : j.op <;> simp [renameInst, Op.map, h] at op
        exact ⟨_, _, rfl⟩
      exact wf.storeTypes A hA j hj x b old
  case loadTypes =>
    intro B hB i hi vol a op
    obtain ⟨A, hA, rfl⟩ := of_converted_mem found hB
    rcases mem_converted_body hi with ⟨c, src, u, cast, -⟩ | ⟨j, hj, rfl⟩
    · cases cast.symm.trans op
    · obtain ⟨x, b, old⟩ : ∃ x b, j.op = .load x b := by
        cases h : j.op <;> simp [renameInst, Op.map, h] at op
        exact ⟨_, _, rfl⟩
      exact wf.loadTypes A hA j hj x b old
  case entryPhis =>
    intro B hB
    obtain ⟨E, hE, rfl⟩ := entryOf hB
    rw [convertBlock_phis hp, wf.entryPhis E hE]
    rfl
  case entryPreds =>
    intro B hB A hA
    obtain ⟨E, hE, rfl⟩ := entryOf hB
    obtain ⟨C, hC, rfl⟩ := of_converted_mem found hA
    rw [convertBlock_successors]
    exact wf.entryPreds E hE C hC
  case complete =>
    intro A hA B hB edge q hq
    obtain ⟨C, hC, rfl⟩ := of_converted_mem found hA
    obtain ⟨D, hD, rfl⟩ := of_converted_mem found hB
    rw [convertBlock_successors] at edge
    obtain ⟨r, hr, rfl⟩ := (mem_convertBlock_phis hp).mp hq
    have listed := mem_labels.mpr (wf.complete C hC D hD edge r hr)
    rw [← narrow.labels_kept hD hr] at listed
    exact mem_labels.mp listed
  case preds =>
    intro B hB q hq v l entry
    obtain ⟨D, hD, rfl⟩ := of_converted_mem found hB
    obtain ⟨r, hr, rfl⟩ := (mem_convertBlock_phis hp).mp hq
    have listed := mem_labels.mpr ⟨v, entry⟩
    rw [narrow.labels_kept hD hr] at listed
    obtain ⟨u, old⟩ := mem_labels.mp listed
    obtain ⟨A, hA, label, edge⟩ := wf.preds D hD r hr u l old
    exact ⟨_, converted_mem found hA, label, by rwa [convertBlock_successors]⟩
  case agree =>
    intro B hB q hq l v u hv hu
    obtain ⟨D, hD, rfl⟩ := of_converted_mem found hB
    obtain ⟨r, hr, rfl⟩ := (mem_convertBlock_phis hp).mp hq
    unfold convertedPhi at hv hu
    split_ifs at hv hu
    · exact widePhi_agree narrow single hv hu
    · obtain ⟨⟨v', b⟩, hv', same⟩ := List.mem_map.mp hv
      obtain ⟨⟨u', b'⟩, hu', same'⟩ := List.mem_map.mp hu
      cases same
      cases same'
      rw [wf.agree D hD r hr _ v' u' hv' hu']

/-! The types of the integers are kept, and those of the new instructions fit. -/

section Types
variable {constBits : Const → Nat → Prop}

theorem hasBits_renamed (found : phiToConvert f p.id = some (p, w)) (narrow : Narrow f p w)
    {v : Value} {n : Nat} (h : HasBits constBits f v n) :
    HasBits constBits (convertPHI f p.id) (renameValue p.id (truncId f) v) n := by
  cases v with
  | inst i =>
    obtain ⟨B, hB, here⟩ := h
    by_cases isPhi : i = p.id
    · obtain ⟨P, hP, member⟩ := narrow.rem.member
      have defP : (p.id, p.ty) ∈ P.defs := by
        simp only [Block.defs, List.mem_append, List.mem_map]
        exact Or.inl ⟨p, member, rfl⟩
      subst isPhi
      have same : p.ty = .int n := narrow.rem.wf.type_unique hP hB defP here
      cases narrow.ty.symm.trans same
      simp only [renameValue, if_true]
      exact ⟨_, converted_mem found hP, trunc_def member⟩
    · simp only [renameValue, if_neg isPhi]
      exact ⟨_, converted_mem found hB, def_converted narrow.rem.id_lt here isPhi⟩
  | arg i =>
    unfold HasBits at h
    rw [← convertPHI_args found] at h
    exact h
  | const c => cases c <;> exact h

theorem convertPHI_wellTyped (found : phiToConvert f p.id = some (p, w)) (narrow : Narrow f p w)
    (typed : WellTyped constBits f) : WellTyped constBits (convertPHI f p.id) := by
  have hp := narrow.rem.id_lt
  obtain ⟨P, hP, member⟩ := narrow.rem.member
  constructor
  case phis =>
    intro B hB q hq n ty v l entry
    obtain ⟨D, hD, rfl⟩ := of_converted_mem found hB
    obtain ⟨r, hr, rfl⟩ := (mem_convertBlock_phis hp).mp hq
    rcases narrow.phi_cases hD hr with ⟨rfl, same⟩ | ⟨-, same⟩
    · rw [same] at entry ty
      cases ty
      obtain ⟨k, u, at_k, rfl⟩ := mem_widePhi.mp entry
      rcases wideValue_cases f k u with ⟨_, _, -, wide⟩ | ⟨other, wide⟩ <;> rw [wide]
      · refine ⟨rfl, ?_⟩
        unfold getLimitedValue
        omega
      · obtain ⟨C, hC, -, here⟩ := incoming_defined narrow at_k other
        exact ⟨_, converted_mem found hC, here⟩
    · rw [same] at entry ty
      obtain ⟨⟨u, b⟩, old, eq⟩ := List.mem_map.mp entry
      cases eq
      exact hasBits_renamed found narrow (typed.phis D hD r hr n ty u _ old)
  case casts =>
    intro B hB i hi op m v cast
    obtain ⟨A, hA, rfl⟩ := of_converted_mem found hB
    have narrowing := narrow.lt
    rw [convertBlock_body, List.mem_append, List.mem_append] at hi
    rcases hi with (hi | hi) | hi <;> obtain ⟨j, hj, rfl⟩ := List.mem_map.mp hi
    · obtain ⟨rfl, -⟩ := mem_trunc.mp hj
      have ne : wideId f ≠ p.id := by unfold wideId; omega
      simp only [renameInst, phiTrunc, createIntegerCast, Op.map, renameValue, if_neg ne,
        Op.cast.injEq,
        Ty.int.injEq, if_neg (Nat.ne_of_gt narrowing), if_pos narrowing] at cast
      obtain ⟨rfl, rfl, rfl⟩ := cast
      refine ⟨⟨_, converted_mem found hP, wide_def hp member⟩, ?_⟩
      intro n ty
      cases ty
      exact narrowing
    · obtain ⟨u, old, rfl⟩ : ∃ u, j.op = .cast op (.int m) u ∧
          v = renameValue p.id (truncId f) u := by
        cases h : j.op <;> simp [renameInst, Op.map, h] at cast
        obtain ⟨rfl, rfl, rfl⟩ := cast
        exact ⟨_, rfl, rfl⟩
      obtain ⟨bits, widths⟩ := typed.casts A hA j hj op m u old
      exact ⟨hasBits_renamed found narrow bits, widths⟩
    · obtain ⟨k, u, at_k, -, rfl⟩ := mem_phiCasts.mp hj
      simp only [renameInst, createIntegerCast, Op.map, Op.cast.injEq, Ty.int.injEq,
        if_neg (Nat.ne_of_lt narrowing), if_neg (Nat.not_lt.mpr (Nat.le_of_lt narrowing))] at cast
      obtain ⟨rfl, rfl, rfl⟩ := cast
      have listed := typed.phis P hP p member w narrow.ty u _ (List.mem_of_getElem? at_k)
      refine ⟨hasBits_renamed found narrow listed, ?_⟩
      intro n ty
      cases ty
      exact narrowing

end Types

/-! Static single assignment: the control-flow graph is the same, and inside a block the
original instructions move by the length of what stands in front of them. -/

section Ssa
variable (found : phiToConvert f p.id = some (p, w))
include found

theorem reachable_iff (l : Label) : Reachable (convertPHI f p.id) l ↔ Reachable f l :=
  reachable_rewritten (convertPHI_blocks found) convertBlock_label convertBlock_successors l

theorem strictDom_iff (d l : Label) : StrictDom (convertPHI f p.id) d l ↔ StrictDom f d l :=
  strictDom_rewritten (convertPHI_blocks found) convertBlock_label convertBlock_successors d l

theorem block_converted (wf : f.WellFormed) {B : Block} (hB : B ∈ f.blocks) :
    (convertPHI f p.id).block B.label = some (convertBlock f p w B) := by
  rw [block_rewritten (convertPHI_blocks found) convertBlock_label, wf.block_of_label hB]
  rfl

omit found in
theorem take_converted (B : Block) (k : Nat) :
    (convertBlock f p w B).body.take ((ExtendPhis.prologue f p w B).length + k) =
      (ExtendPhis.prologue f p w B).map (renameInst p.id (truncId f)) ++
        (B.body.map (renameInst p.id (truncId f)) ++
          (phiCasts f w B.label 0 p.incoming).map (renameInst p.id (truncId f))).take k := by
  have length : (ExtendPhis.prologue f p w B).length =
      ((ExtendPhis.prologue f p w B).map (renameInst p.id (truncId f))).length :=
        (List.length_map _).symm
  rw [convertBlock_body, List.append_assoc, length, List.take_length_add_append]

theorem available_converted (rem : Removable f p) {d : Nat} {B : Block} (hB : B ∈ f.blocks)
    {k : Nat} (h : Available f d B.label k) :
    Available (convertPHI f p.id) (if d = p.id then truncId f else d) B.label
      ((ExtendPhis.prologue f p w B).length + k) := by
  have block := block_converted found rem.wf hB
  obtain ⟨P, hP, hp⟩ := rem.member
  by_cases isPhi : d = p.id
  · subst isPhi
    rw [if_pos rfl]
    have atTrunc : p ∈ B.phis → Available (convertPHI f p.id) (truncId f) B.label
        ((ExtendPhis.prologue f p w B).length + k) := by
      intro here
      refine .earlier block ?_
      rw [take_converted, List.map_append, List.mem_append, List.map_map]
      exact Or.inl
        (List.mem_map.mpr ⟨phiTrunc f w, mem_trunc.mpr ⟨rfl, List.mem_map_of_mem here⟩, rfl⟩)
    cases h with
    | phi block' here =>
      cases block'.symm.trans (rem.wf.block_of_label hB)
      obtain ⟨q, hq, same⟩ := List.mem_map.mp here
      exact atTrunc ((rem.wf.phi_unique hB hP hq hp same).2 ▸ hq)
    | earlier block' here =>
      cases block'.symm.trans (rem.wf.block_of_label hB)
      obtain ⟨i, hi, same⟩ := List.mem_map.mp here
      exact absurd same (rem.wf.phi_id_ne_inst_id hP hB hp (List.mem_of_mem_take hi))
    | @dominated D member here dom =>
      obtain ⟨⟨i, ty⟩, hd, same⟩ := List.mem_map.mp here
      have iP : p.id ∈ P.ids := by simp [Block.ids]; exact Or.inl ⟨p, hp, rfl⟩
      have id : i = p.id := same
      subst id
      have home := rem.wf.block_of_id hP member iP (Function.mem_ids_of_def hd)
      subst home
      exact .dominated (converted_mem found hP) (List.mem_map_of_mem (trunc_def hp))
        ((strictDom_iff found _ _).mpr dom)
  · rw [if_neg isPhi]
    cases h with
    | phi block' here =>
      cases block'.symm.trans (rem.wf.block_of_label hB)
      obtain ⟨q, hq, rfl⟩ := List.mem_map.mp here
      refine .phi block (List.mem_map.mpr ⟨renamePhi p.id (truncId f) q, ?_, rfl⟩)
      exact (mem_convertBlock_phis rem.id_lt).mpr ⟨q, hq, if_neg isPhi⟩
    | earlier block' here =>
      cases block'.symm.trans (rem.wf.block_of_label hB)
      obtain ⟨i, hi, rfl⟩ := List.mem_map.mp here
      refine .earlier block (List.mem_map.mpr ⟨renameInst p.id (truncId f) i, ?_, rfl⟩)
      rw [take_converted, List.take_append, ← List.map_take]
      exact List.mem_append_right _ (List.mem_append_left _ (List.mem_map_of_mem hi))
    | @dominated D member here dom =>
      obtain ⟨⟨i, ty⟩, hd, rfl⟩ := List.mem_map.mp here
      exact .dominated (converted_mem found member)
        (List.mem_map_of_mem (def_converted rem.id_lt hd isPhi)) ((strictDom_iff found _ _).mpr dom)

/-- A renamed operand is available if the original one was. -/
theorem renamed_available (rem : Removable f p) {B : Block}
    (hB : B ∈ f.blocks) {k d : Nat} {v : Value} (h : ∀ e, v = .inst e → Available f e B.label k)
    (use : renameValue p.id (truncId f) v = .inst d) :
    Available (convertPHI f p.id) d B.label ((ExtendPhis.prologue f p w B).length + k) := by
  cases v with
  | inst e =>
    cases use
    exact available_converted found rem hB (h e rfl)
  | arg i => cases use
  | const c => cases use

theorem body_available (ssa : Ssa f)
    (rem : Removable f p) {B : Block} (hB : B ∈ f.blocks) (reach : Reachable f B.label)
    {k : Nat} {i : Inst} (at_k : (convertBlock f p w B).body[k]? = some i) {d : Nat}
    (use : Value.inst d ∈ i.op.operands) :
    Available (convertPHI f p.id) d B.label k := by
  rw [convertBlock_body, List.append_assoc, List.getElem?_append] at at_k
  simp only [List.length_map] at at_k
  split_ifs at at_k with inPrologue
  · -- the trunc reads the wide phi of its own block
    rw [List.getElem?_map] at at_k
    obtain ⟨j, at_j, rfl⟩ := Option.map_eq_some_iff.mp at_k
    obtain ⟨rfl, here⟩ := mem_trunc.mp (List.mem_of_getElem? at_j)
    obtain ⟨q, hq, same⟩ := List.mem_map.mp here
    have ne : wideId f ≠ p.id := by
      have := rem.id_lt
      unfold wideId
      omega
    simp only [renameInst, phiTrunc, createIntegerCast, Op.map, Op.operands, renameValue, if_neg ne,
      List.mem_singleton, Value.inst.injEq] at use
    subst use
    refine .phi (block_converted found rem.wf hB) (List.mem_map.mpr ⟨widePhi f p, ?_, rfl⟩)
    exact (mem_convertBlock_phis rem.id_lt).mpr ⟨q, hq, if_pos same⟩
  · rw [← Nat.add_sub_of_le (Nat.not_lt.mp inPrologue)]
    rw [List.getElem?_append] at at_k
    simp only [List.length_map] at at_k
    split_ifs at at_k with inBody
    · rw [List.getElem?_map] at at_k
      obtain ⟨j, at_j, rfl⟩ := Option.map_eq_some_iff.mp at_k
      simp only [renameInst, Op.operands_map, List.mem_map] at use
      obtain ⟨v, hv, use⟩ := use
      exact renamed_available found rem hB
        (fun e he => ssa.body B hB reach _ j at_j e (he ▸ hv)) use
    · rw [List.getElem?_map] at at_k
      obtain ⟨j, at_j, rfl⟩ := Option.map_eq_some_iff.mp at_k
      obtain ⟨m, v, entry, -, rfl⟩ := mem_phiCasts.mp (List.mem_of_getElem? at_j)
      obtain ⟨P, hP, hp⟩ := rem.member
      simp only [renameInst, createIntegerCast, Op.map, Op.operands, List.mem_singleton] at use
      refine renamed_available found rem hB (fun e he => ?_) use.symm
      have atEnd := ssa.phi P hP p hp B hB reach e (he ▸ List.mem_of_getElem? entry)
      exact atEnd.mono (Nat.not_lt.mp inBody)

theorem convertPHI_ssa (ssa : Ssa f) (narrow : Narrow f p w) (single : ¬ RepeatedCast p) :
    Ssa (convertPHI f p.id) := by
  have rem := narrow.rem
  have behind : ∀ B, (ExtendPhis.prologue f p w B).length + B.body.length ≤
      (convertBlock f p w B).body.length := by
    intro B
    rw [convertBlock_body]
    simp only [List.length_append, List.length_map]
    omega
  refine ⟨convertPHI_wellFormed found narrow single, ?_, ?_, ?_⟩
  · intro B hB reach k i at_k d use
    obtain ⟨A, hA, rfl⟩ := of_converted_mem found hB
    exact body_available found ssa rem hA ((reachable_iff found _).mp reach) at_k use
  · intro B hB reach d use
    obtain ⟨A, hA, rfl⟩ := of_converted_mem found hB
    simp only [convertBlock, erasePhi, renameBlock, ExtendPhis.insertIntoBlock, Term.operands_map,
      List.mem_map] at use
    obtain ⟨v, hv, use⟩ := use
    have atEnd := ssa.term A hA ((reachable_iff found _).mp reach)
    exact (renamed_available found rem hA (fun e he => atEnd e (he ▸ hv)) use).mono (behind A)
  · intro B hB q hq C hC reach d entry
    obtain ⟨D, hD, rfl⟩ := of_converted_mem found hB
    obtain ⟨A, hA, rfl⟩ := of_converted_mem found hC
    obtain ⟨r, hr, rfl⟩ := (mem_convertBlock_phis rem.id_lt).mp hq
    rcases narrow.phi_cases hD hr with ⟨rfl, same⟩ | ⟨-, same⟩
    · -- the casts stand at the end of the block
      rw [same] at entry
      obtain ⟨k, u, at_k, value⟩ := mem_widePhi.mp entry
      rcases wideValue_cases f k u with ⟨_, _, -, wide⟩ | ⟨other, wide⟩ <;> cases value.trans wide
      have block : (convertPHI f r.id).block (convertBlock f r w A).label =
          some (convertBlock f r w A) :=
        block_converted found rem.wf hA
      refine .earlier block ?_
      rw [List.take_length, convertBlock_body, List.map_append, List.mem_append]
      refine Or.inr (List.mem_map.mpr ⟨_, List.mem_map_of_mem (mem_phiCasts.mpr
        ⟨k, u, at_k, other, rfl⟩), ?_⟩)
      rw [Nat.zero_add]
      rfl
    · rw [same] at entry
      obtain ⟨⟨v, l⟩, he, eq⟩ := List.mem_map.mp entry
      simp only [Prod.mk.injEq] at eq
      obtain ⟨use, rfl⟩ := eq
      have atEnd := ssa.phi D hD r hr A hA ((reachable_iff found _).mp reach)
      exact (renamed_available found rem hA (fun e eq => atEnd e (eq ▸ he)) use).mono (behind A)

theorem convertPHI_verified (verified : Verified f) (narrow : Narrow f p w)
    (single : ¬ RepeatedCast p) :
    Verified (convertPHI f p.id) := by
  refine ⟨convertPHI_ssa found verified.ssa narrow single, ?_, ?_⟩
  · intro B hB l succ
    obtain ⟨A, hA, rfl⟩ := of_converted_mem found hB
    rw [convertBlock_successors] at succ
    obtain ⟨C, hC, label⟩ := verified.targets A hA l succ
    exact ⟨_, converted_mem found hC, label⟩
  · intro B hB C hC q hq
    obtain ⟨A, hA, rfl⟩ := of_converted_mem found hB
    obtain ⟨D, hD, rfl⟩ := of_converted_mem found hC
    obtain ⟨r, hr, rfl⟩ := (mem_convertBlock_phis narrow.rem.id_lt).mp hq
    rw [narrow.labels_kept hD hr, convertBlock_successors]
    exact verified.entries A hA D hD r hr

end Ssa

end Conversion

/-! All phis. -/

/-- Every integer phi has at most 64 bits. -/
def AtMost64 (f : Function) : Prop := ∀ B ∈ f.blocks, ∀ p ∈ B.phis, ∀ w, p.ty = .int w → w ≤ 64

/-- No phi that is widened lists a block twice with a value that needs a cast. -/
def SingleCasts (f : Function) : Prop :=
  ∀ B ∈ f.blocks, ∀ p ∈ B.phis, ∀ w, p.ty = .int w → w ≠ 64 → ¬ RepeatedCast p

theorem repeatedCast_rename {old new : Nat} {q : Phi} :
    RepeatedCast (renamePhi old new q) ↔ RepeatedCast q := by
  have entry :
      ∀ {j : Nat} {v : Value} {l : Label}, (renamePhi old new q).incoming[j]? = some (v, l) ↔
      ∃ u, q.incoming[j]? = some (u, l) ∧ renameValue old new u = v := by
    intro j v l
    simp only [renamePhi, List.getElem?_map, Option.map_eq_some_iff, Prod.mk.injEq]
    constructor
    · rintro ⟨⟨u, b⟩, at_j, same, rfl⟩
      exact ⟨u, at_j, same⟩
    · rintro ⟨u, at_j, same⟩
      exact ⟨(u, l), at_j, same, rfl⟩
  constructor
  · rintro ⟨j, k, v, u, l, ne, at_j, at_k, other⟩
    obtain ⟨v', at_j', rfl⟩ := entry.mp at_j
    obtain ⟨u', at_k', rfl⟩ := entry.mp at_k
    exact ⟨j, k, v', u', l, ne, at_j', at_k', by rwa [isConstantInt_rename] at other⟩
  · rintro ⟨j, k, v, u, l, ne, at_j, at_k, other⟩
    exact ⟨j, k, _, _, l, ne, entry.mpr ⟨v, at_j, rfl⟩, entry.mpr ⟨u, at_k, rfl⟩,
      by rwa [isConstantInt_rename]⟩

theorem phiToConvert_some {f : Function} {i : Nat} {p : Phi} {w : Nat}
    (h : phiToConvert f i = some (p, w)) :
    p.id = i ∧ p.ty = .int w ∧ w ≠ 64 ∧ ∃ B ∈ f.blocks, p ∈ B.phis := by
  obtain ⟨q, found, converts⟩ := Option.bind_eq_some_iff.mp h
  have id : q.id = i := by simpa using List.find?_some found
  obtain ⟨B, hB, hq⟩ := List.mem_flatMap.mp (List.mem_of_find?_eq_some found)
  split at converts
  · next n ty =>
    split_ifs at converts with wide
    cases converts
    exact ⟨id, ty, wide, B, hB, hq⟩
  · cases converts

/-- Nothing happens, or one narrow phi is widened. -/
theorem convertPHI_cases {f : Function} (wf : f.WellFormed) (small : AtMost64 f) (i : Nat) :
    (phiToConvert f i = none ∧ convertPHI f i = f) ∨
      ∃ p w, p.id = i ∧ phiToConvert f p.id = some (p, w) ∧ Narrow f p w := by
  cases found : phiToConvert f i with
  | none => exact Or.inl ⟨rfl, by simp only [convertPHI, found]⟩
  | some r =>
    obtain ⟨p, w⟩ := r
    obtain ⟨rfl, ty, ne, B, hB, hp⟩ := phiToConvert_some found
    exact Or.inr ⟨p, w, rfl, found, ⟨wf, B, hB, hp⟩, ty,
      Nat.lt_of_le_of_ne (small B hB p hp w ty) ne⟩

section
variable {f : Function} {p : Phi} {w : Nat} (found : phiToConvert f p.id = some (p, w))
  (narrow : Narrow f p w)
include found narrow

theorem atMost64_converted (small : AtMost64 f) : AtMost64 (convertPHI f p.id) := by
  intro B hB q hq n ty
  obtain ⟨D, hD, rfl⟩ := of_converted_mem found hB
  obtain ⟨r, hr, rfl⟩ := (mem_convertBlock_phis narrow.rem.id_lt).mp hq
  rcases narrow.phi_cases hD hr with ⟨-, same⟩ | ⟨-, same⟩ <;> rw [same] at ty
  · cases ty
    exact Nat.le_refl _
  · exact small D hD r hr n ty

theorem singleCasts_converted (single : SingleCasts f) : SingleCasts (convertPHI f p.id) := by
  intro B hB q hq n ty ne
  obtain ⟨D, hD, rfl⟩ := of_converted_mem found hB
  obtain ⟨r, hr, rfl⟩ := (mem_convertBlock_phis narrow.rem.id_lt).mp hq
  rcases narrow.phi_cases hD hr with ⟨-, same⟩ | ⟨-, same⟩ <;> rw [same] at ty ⊢
  · cases ty
    exact absurd rfl ne
  · rw [repeatedCast_rename]
    exact single D hD r hr n ty ne

end

theorem SingleCasts.of_narrow {f : Function} {p : Phi} {w : Nat} (single : SingleCasts f)
    (narrow : Narrow f p w) :
    ¬ RepeatedCast p := by
  obtain ⟨B, hB, hp⟩ := narrow.rem.member
  exact single B hB p hp w narrow.ty (Nat.ne_of_lt narrow.lt)

/-- The rules of the verifier, with the types of integers. -/
structure Valid (constBits : Const → Nat → Prop) (f : Function) : Prop where
  verified : Verified f
  typed : WellTyped constBits f

theorem convertAll_valid {constBits : Const → Nat → Prop} {f : Function}
    (valid : Valid constBits f) (small : AtMost64 f) (single : SingleCasts f) (phis : List Nat) :
    Valid constBits (convertAll f phis) := by
  induction phis generalizing f with
  | nil => exact valid
  | cons i phis ih =>
    change Valid constBits (convertAll (convertPHI f i) phis)
    rcases convertPHI_cases valid.verified.ssa.wf small i with ⟨-, same⟩
      | ⟨p, w, rfl, found, narrow⟩
    · rw [same]
      exact ih valid small single
    · exact ih ⟨convertPHI_verified found valid.verified narrow (single.of_narrow narrow),
        convertPHI_wellTyped found narrow valid.typed⟩ (atMost64_converted found narrow small)
        (singleCasts_converted found narrow single)

/-! Two casts for one predecessor stay in the function to the end. -/

/-- A phi lists two different instructions for one block, and none of the three is still to
be converted. -/
def Broken (f : Function) (phis : List Nat) : Prop :=
  ∃ B ∈ f.blocks, ∃ r ∈ B.phis, ∃ a b l, a ≠ b ∧ (Value.inst a, l) ∈ r.incoming ∧
    (Value.inst b, l) ∈ r.incoming ∧ r.id ∉ phis ∧ a ∉ phis ∧ b ∉ phis

theorem Broken.not_wellFormed {f : Function} {phis : List Nat} (broken : Broken f phis) :
    ¬ f.WellFormed := by
  obtain ⟨B, hB, r, hr, a, b, l, ne, ha, hb, -⟩ := broken
  intro wf
  cases wf.agree B hB r hr l _ _ ha hb
  exact ne rfl

theorem convertPHI_nextId_le (f : Function) (i : Nat) : f.nextId ≤ (convertPHI f i).nextId := by
  unfold convertPHI
  split
  · exact Nat.le_refl _
  · dsimp only
    omega

theorem Broken.step {f : Function} {i : Nat} {phis : List Nat} (lt : i < f.nextId)
    (broken : Broken f (i :: phis)) : Broken (convertPHI f i) phis := by
  obtain ⟨B, hB, r, hr, a, b, l, ne, ha, hb, hr', ha', hb'⟩ := broken
  simp only [List.mem_cons, not_or] at hr' ha' hb'
  cases found : phiToConvert f i with
  | none =>
    have same : convertPHI f i = f := by simp only [convertPHI, found]
    rw [same]
    exact ⟨B, hB, r, hr, a, b, l, ne, ha, hb, hr'.2, ha'.2, hb'.2⟩
  | some q =>
    obtain ⟨p, w⟩ := q
    obtain ⟨rfl, -⟩ := phiToConvert_some found
    have kept : ∀ c, c ≠ p.id → (Value.inst c, l) ∈ r.incoming →
        (Value.inst c, l) ∈ (renamePhi p.id (truncId f) r).incoming := by
      intro c other hc
      refine List.mem_map.mpr ⟨_, hc, ?_⟩
      simp [renameValue, other]
    refine ⟨_, converted_mem found hB, renamePhi p.id (truncId f) r, ?_, a, b, l, ne,
      kept a ha'.1 ha,
      kept b hb'.1 hb, hr'.2, ha'.2, hb'.2⟩
    exact (mem_convertBlock_phis lt).mpr ⟨r, hr, if_neg hr'.1⟩

theorem Broken.convertAll {f : Function} {phis : List Nat} (lt : ∀ i ∈ phis, i < f.nextId)
    (broken : Broken f phis) : Broken (convertAll f phis) [] := by
  induction phis generalizing f with
  | nil => exact broken
  | cons i phis ih =>
    refine ih ?_ (broken.step (lt i List.mem_cons_self))
    intro j hj
    exact Nat.lt_of_lt_of_le (lt j (List.mem_cons_of_mem i hj)) (convertPHI_nextId_le f i)

theorem broken_of_repeatedCast {f : Function} {p : Phi} {w : Nat}
    (found : phiToConvert f p.id = some (p, w)) (narrow : Narrow f p w) (repeated : RepeatedCast p)
    {phis : List Nat} (lt : ∀ i ∈ phis, i < f.nextId) : Broken (convertPHI f p.id) phis := by
  obtain ⟨j, k, v, u, l, ne, at_j, at_k, other⟩ := repeated
  obtain rfl := narrow.rem.agree (List.mem_of_getElem? at_j) (List.mem_of_getElem? at_k)
  obtain ⟨P, hP, member⟩ := narrow.rem.member
  have listed : ∀ m, p.incoming[m]? = some (v, l) →
      (Value.inst (castId f m), l) ∈ (widePhi f p).incoming := by
    intro m at_m
    refine mem_widePhi.mpr ⟨m, v, at_m, ?_⟩
    rcases wideValue_cases f m v with ⟨_, _, rfl, -⟩ | ⟨-, wide⟩
    · cases other
    · exact wide.symm
  have new : ∀ c, f.nextId ≤ c → c ∉ phis := fun c le member => by
    have := lt c member
    omega
  refine ⟨_, converted_mem found hP, widePhi f p, ?_, castId f j, castId f k, l, ?_, listed j at_j,
    listed k at_k, new _ (Nat.le_refl _), new _ ?_, new _ ?_⟩
  · exact (mem_convertBlock_phis narrow.rem.id_lt).mpr ⟨p, member, if_pos rfl⟩
  · simp only [castId]
    omega
  · simp only [castId]
    omega
  · simp only [castId]
    omega

/-- A phi with a repeated cast that is still to be converted spoils the function. -/
theorem convertAll_not_wellFormed {f : Function} (verified : Verified f) (small : AtMost64 f)
    {phis : List Nat} (lt : ∀ i ∈ phis, i < f.nextId) {B : Block} (hB : B ∈ f.blocks) {p : Phi}
    (hp : p ∈ B.phis) {w : Nat} (ty : p.ty = .int w) (ne : w ≠ 64) (repeated : RepeatedCast p)
    (turn : p.id ∈ phis) :
    ¬ (convertAll f phis).WellFormed := by
  induction phis generalizing f B p with
  | nil => cases turn
  | cons i phis ih =>
    change ¬ (convertAll (convertPHI f i) phis).WellFormed
    have wf := verified.ssa.wf
    have lt' : ∀ j ∈ phis, j < (convertPHI f i).nextId := fun j hj =>
      Nat.lt_of_lt_of_le (lt j (List.mem_cons_of_mem i hj)) (convertPHI_nextId_le f i)
    have own : p.id ∈ phiIds f := List.mem_map_of_mem (List.mem_flatMap.mpr ⟨B, hB, hp⟩)
    rcases convertPHI_cases wf small i with ⟨none, same⟩ | ⟨q, n, rfl, found, narrow⟩
    · have other : p.id ≠ i := by
        rintro rfl
        obtain ⟨q, found, id, rem⟩ := findPhi_of_mem wf own
        obtain ⟨C, hC, hq⟩ := rem.member
        obtain ⟨rfl, rfl⟩ := wf.phi_unique hC hB hq hp id
        simp [phiToConvert, found, ty, ne] at none
      rw [same]
      exact ih verified small (fun j hj => lt j (List.mem_cons_of_mem i hj)) hB hp ty repeated
        ((List.mem_cons.mp turn).resolve_left other)
    · by_cases here : RepeatedCast q
      · exact ((broken_of_repeatedCast found narrow here
          (fun j hj => lt j (List.mem_cons_of_mem _ hj))).convertAll
          lt').not_wellFormed
      · have other : p.id ≠ q.id := by
          intro same
          obtain ⟨C, hC, hq⟩ := narrow.rem.member
          exact here ((wf.phi_unique hB hC hp hq same).2 ▸ repeated)
        exact ih (convertPHI_verified found verified narrow here)
          (atMost64_converted found narrow small) lt'
          (converted_mem found hB)
            ((mem_convertBlock_phis narrow.rem.id_lt).mpr ⟨p, hp, if_neg other⟩) ty
          (repeatedCast_rename.mpr repeated) ((List.mem_cons.mp turn).resolve_left other)

theorem singleCasts_of_wellFormed {f : Function} (verified : Verified f) (small : AtMost64 f)
    (wf : (convertPHIs f).WellFormed) : SingleCasts f := by
  intro B hB p hp w ty ne repeated
  have own : p.id ∈ phiIds f := List.mem_map_of_mem (List.mem_flatMap.mpr ⟨B, hB, hp⟩)
  exact convertAll_not_wellFormed verified small (fun i hi => phiIds_lt verified.ssa.wf hi) hB hp ty
    ne repeated own wf

end ExtendPhis
