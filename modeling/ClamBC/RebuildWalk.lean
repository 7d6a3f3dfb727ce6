import ClamBC.FunctionReplacements

/-!
# The order in which blocks are rebuilt

A block is rebuilt instruction by instruction. When an operand has not been rebuilt yet, its block
is rebuilt first, in the middle of the one that needs it. The operands of phis are looked up at the
end.

In static single assignment form, a block that is only half built never has to wait for itself: the
blocks that wait are strictly dominated by the block they wait for.
-/

namespace RebuildWalk

open Ir SsaForm FunctionEdits

/-! ## Image blocks -/

inductive Kind where
  | alloca
  | terminator
  | other
  deriving DecidableEq

/-- What is found for a value. -/
inductive Image where
  | const (c : Const)
  | arg (index : Nat)
  | copy (id : Nat)

/-- An instruction of an image block: one that takes the place of an instruction, or a cast that was
added. The operands are as they were found; the casts around them are items of their own. -/
inductive Item where
  | copy (id : Nat) (kind : Kind) (operands : List Image)
  | phi (id : Nat) (incoming : List (Image × Label))
  | cast

def Item.isAlloca : Item → Bool
  | .copy _ .alloca _ => true
  | _ => false

def Item.isTerminator : Item → Bool
  | .copy _ .terminator _ => true
  | _ => false

def Item.addIncoming (n : Nat) (e : Image × Label) : Item → Item
  | .phi m incoming => .phi m (if m = n then incoming ++ [e] else incoming)
  | item => item

def copies (items : List Item) : List Nat :=
  items.filterMap fun item =>
    match item with
    | .copy id _ _ => some id
    | .phi id _ => some id
    | .cast => none

/-- Behind an instruction and the allocas that follow it. At the end of the block there is nothing
to look at. -/
def insertBehind (items : List Item) (n : Nat) : Option (List Item) :=
  match (items.drop (n + 1)).dropWhile Item.isAlloca with
  | [] => none
  | next :: rest => some (items.take (n + 1) ++ (items.drop (n + 1)).takeWhile Item.isAlloca ++
      .cast :: next :: rest)

def insertBeforeTerminator (items : List Item) : List Item :=
  items.takeWhile (!·.isTerminator) ++ .cast :: items.dropWhile (!·.isTerminator)

/-- `vmap` has the images of instructions, and `here` is the block that the builder is at the end
of. -/
structure State where
  vmap : Nat → Option Image
  visited : List Label
  image : Label → List Item
  here : Label

def State.setImage (st : State) (l : Label) (items : List Item) : State :=
  { st with image := Function.update st.image l items }

def State.append (st : State) (items : List Item) : State :=
  st.setImage st.here (st.image st.here ++ items)

def State.enter (st : State) (n : Nat) (image : Image) : State :=
  { st with vmap := Function.update st.vmap n (some image) }

def State.addIncoming (st : State) (n : Nat) (e : Image × Label) : State :=
  { st with image := fun l => (st.image l).map (Item.addIncoming n e) }

/-! ## Casts and constants -/

def hasAllZeroIndices (indices : List Value) : Bool :=
  indices.all fun v =>
    match v with
    | .const (.int _ 0) => true
    | _ => false

/-- With constant operands, these become constants. A cast to the type that a value has is the
value. -/
def mayFold : Op Value → Bool
  | .icmp .. | .binary .. | .select .. | .cast .. | .getElementPtr .. => true
  | _ => false

/-- Only a cast. -/
def isBitCast : Op Value → Bool
  | .getElementPtr _ indices => hasAllZeroIndices indices
  | _ => false

/-- What `stripPointerCasts` can find behind a value. -/
inductive Stripped (f : Function) : Value → Nat → Prop
  | self (d : Nat) : Stripped f (.inst d) d
  | through {A : Block} (hA : A ∈ f.blocks) {i : Inst} (hi : i ∈ A.body) {v : Value}
      (operand : v ∈ i.op.operands) {d : Nat}
      (rest : Stripped f v d) : Stripped f (.inst i.id) d

/-- Where a cast is put: at the end of the block that is built, or behind an instruction of an image
block. -/
inductive Spot where
  | atEnd
  | behind (block : Label) (index : Nat)

/-- What depends on types: which casts are needed, and what is folded. A compiler can evaluate the
operands of an instruction in any order. A cast that is not at the end stands behind the value it
casts. -/
structure Decisions (f : Function) where
  order : Nat → List (Value × Nat) → List (Value × Nat)
  folded : Nat → Bool
  foldedTo : Nat → List Image → Image
  cast : State → Nat → Nat → Bool → Option Spot
  resultCast : Nat → Bool
  incomingCast : Nat → Nat → Bool
  order_perm : ∀ n operands, (order n operands).Perm operands
  foldedTo_mem : ∀ n images, (∃ c, foldedTo n images = .const c) ∨ foldedTo n images ∈ images
  cast_behind :
    ∀ st, ∀ B ∈ f.blocks, ∀ i ∈ B.body, ∀ v k, (v, k) ∈ i.op.operands.zipIdx → ∀ again l n,
    cast st i.id k again = some (.behind l n) →
      (∃ D ∈ f.blocks, D.label = l ∧ ∃ d ∈ D.defs.map Prod.fst, Stripped f v d) ∧
        ∃ item, (st.image l)[n]? = some item ∧ item.isTerminator = false

/-! ## The walk -/

inductive Fault where
  | fuel | noBlock | notInstruction | notRemapped | unknown | pastEnd | noIncoming
  deriving DecidableEq

/-- Instructions with a visitor that does not stop. -/
def handled : Op Value → Bool
  | .alloca none => true
  | .alloca (some (.const (.int _ _))) => true
  | .alloca _ => false
  | .call _ .indirect _ => false
  | .dbg => false
  | .other .. => false
  | _ => true

/-- The size of an alloca is a constant that is not mapped. -/
def mappedOperands : Op Value → List Value
  | .alloca _ => []
  | op => op.operands

def kind : Op Value → Kind
  | .alloca _ => .alloca
  | _ => .other

def isStore : Op Value → Bool
  | .store .. => true
  | _ => false

def blockOf (f : Function) (d : Nat) : Option Block := f.blocks.find? fun B => d ∈ B.ids

def isPhi (f : Function) (d : Nat) : Bool := f.blocks.any fun B => d ∈ B.phis.map Phi.id

section
variable {f : Function} (dec : Decisions f)

/-- An instruction of its own is made for it. -/
def emitted (i : Inst) : Bool := !isBitCast i.op && !(mayFold i.op && dec.folded i.id)

/-- What is entered for an instruction: what it casts, what it folds to, or its copy. -/
def entry (i : Inst) (images : List Image) : Image :=
  if isBitCast i.op then images.headD (.const .undef)
  else if mayFold i.op && dec.folded i.id then dec.foldedTo i.id images
  else .copy i.id

section
variable (runOnBasicBlock : Label → State → Except Fault State)

def mapValue (v : Value) (st : State) : Except Fault (Image × State) :=
  match v with
  | .const c => .ok (.const c, st)
  | .arg k => if k < f.args.length then .ok (.arg k, st) else .error .notInstruction
  | .inst d =>
    match st.vmap d with
    | some image => .ok (image, st)
    | none => match blockOf f d with
      | none => .error .noBlock
      | some D => (runOnBasicBlock D.label st).bind fun st' =>
        match st'.vmap d with
        -- The builder goes back to the end of the block that it was in.
        | some image => .ok (image, { st' with here := st.here })
        | none => .error .notRemapped

def makeCast (spot : Option Spot) (st : State) : Except Fault State :=
  match spot with
  | none => .ok st
  | some .atEnd => .ok (st.append [.cast])
  | some (.behind l n) =>
    if l = st.here then .ok (st.append [.cast])
    else match insertBehind (st.image l) n with
      | none => .error .pastEnd
      | some items => .ok (st.setImage l items)

/-- `mapValue` or `mapPointer`. The address of an alloca is cast twice. -/
def mapOperand (i : Inst) (operand : Value × Nat) (st : State) : Except Fault (Image × State) :=
  (mapValue (f := f) runOnBasicBlock operand.1 st).bind fun found =>
    (makeCast (dec.cast found.2 i.id operand.2 false) found.2).bind fun st =>
      (makeCast (dec.cast st i.id operand.2 true) st).map fun st => (found.1, st)

/-- The images of the operands, each under its number. -/
def mapOperands (i : Inst) : List (Value × Nat) → State → Except Fault ((Nat → Image) × State)
  | [], st => .ok (fun _ => .const .undef, st)
  | operand :: operands, st => (mapOperand dec runOnBasicBlock i operand st).bind fun found =>
      (mapOperands i operands found.2).map fun rest =>
        (Function.update rest.1 operand.2 found.1, rest.2)

/-- The entry for an instruction, and its copy at the end of the block. -/
def emit (i : Inst) (images : List Image) (st : State) : State :=
  let entered := if isStore i.op then st else st.enter i.id (entry dec i images)
  entered.append ((if emitted dec i then [.copy i.id (kind i.op) images] else []) ++
    if dec.resultCast i.id then [.cast] else [])

def visitInst (i : Inst) (st : State) : Except Fault State :=
  if handled i.op then
    (mapOperands dec runOnBasicBlock i (dec.order i.id (mappedOperands i.op).zipIdx) st).map
      fun found =>
        emit dec i ((mappedOperands i.op).zipIdx.map fun e => found.1 e.2) found.2
  else .error .unknown

/-- The operands are mapped later. -/
def visitPHINode (st : State) (p : Phi) : State :=
  (st.enter p.id (.copy p.id)).append [.phi p.id []]

def mapValues : List Value → State → Except Fault (List Image × State)
  | [], st => .ok ([], st)
  | v :: vs, st => (mapValue (f := f) runOnBasicBlock v st).bind fun found =>
      (mapValues vs found.2).map fun rest => (found.1 :: rest.1, rest.2)

def visitTerminator (B : Block) (st : State) : Except Fault State :=
  (mapValues (f := f) runOnBasicBlock B.term.operands st).map fun found =>
    found.2.append [.copy B.termId .terminator found.1]

def visit (B : Block) (st : State) : Except Fault State :=
  (B.body.foldlM (fun st i => visitInst dec runOnBasicBlock i st)
    (B.phis.foldl visitPHINode st)).bind
    (visitTerminator (f := f) runOnBasicBlock B)

end

def runOnBasicBlock : Nat → Label → State → Except Fault State
  | 0, _, _ => .error .fuel
  | fuel + 1, l, st =>
    match f.block l with
    | none => .error .noBlock
    | some B =>
      if l ∈ st.visited then .ok st
      else visit dec (runOnBasicBlock fuel) B { st with here := l, visited := l :: st.visited }

def mapPHIValue (fuel : Nat) (v : Value) (st : State) : Except Fault (Image × State) :=
  match v with
  | .inst d =>
    if isPhi f d then
      match st.vmap d with
      | some image => .ok (image, st)
      -- The recursion is broken: a phi without an entry gets one here.
      | none => .ok (.copy d, (st.enter d (.copy d)).append [.phi d []])
    else mapValue (f := f) (runOnBasicBlock dec fuel) (.inst d) st
  | v => mapValue (f := f) (runOnBasicBlock dec fuel) v st

/-- `n` is the phi that the incoming value is added to. -/
def mapIncoming (fuel : Nat) (p : Phi) (n : Nat) (st : State) (e : (Value × Label) × Nat) :
    Except Fault State :=
  (mapPHIValue dec fuel e.1.1 st).map fun found =>
    let st := if dec.incomingCast p.id e.2 then
      found.2.setImage e.1.2 (insertBeforeTerminator (found.2.image e.1.2)) else found.2
    st.addIncoming n (found.1, e.1.2)

/-- The second phase, for one phi. -/
def mapPhi (fuel : Nat) (st : State) (p : Phi) : Except Fault State :=
  match st.vmap p.id with
  | some (.copy n) =>
    if p.incoming = [] then .error .noIncoming
    else p.incoming.zipIdx.foldlM (mapIncoming dec fuel p n) st
  | _ => .error .notRemapped

def initial : State := ⟨fun _ => none, [], fun _ => [], 0⟩

def runOnFunction (fuel : Nat) : Except Fault State :=
  (f.blocks.foldlM (fun st B => runOnBasicBlock dec fuel B.label st) initial).bind fun st =>
    (f.blocks.flatMap Block.phis).foldlM (mapPhi dec fuel) st

/-- The instructions of the image of a block. -/
def emittedIds (B : Block) : List Nat :=
  B.phis.map Phi.id ++ (B.body.filter (emitted dec)).map Inst.id ++ [B.termId]

end

/-! ## Items -/

@[simp] theorem copies_append (items items' : List Item) :
    copies (items ++ items') = copies items ++ copies items' := List.filterMap_append

@[simp] theorem copies_nil : copies [] = [] := rfl

@[simp] theorem copies_copy (n : Nat) (k : Kind) (images : List Image) (items : List Item) :
    copies (.copy n k images :: items) = n :: copies items := rfl

@[simp] theorem copies_phi (n : Nat) (incoming : List (Image × Label)) (items : List Item) :
    copies (.phi n incoming :: items) = n :: copies items := rfl

@[simp] theorem copies_cast (items : List Item) : copies (.cast :: items) = copies items := rfl

theorem copies_addIncoming (n : Nat) (e : Image × Label) (items : List Item) :
    copies (items.map (Item.addIncoming n e)) = copies items := by
  induction items with
  | nil => rfl
  | cons item items ih => cases item <;> simp [Item.addIncoming, ih]

/-- A block that ends in a terminator, as every finished block does. -/
def Ends (items : List Item) (n : Nat) : Prop :=
  ∃ front images, items = front ++ [.copy n .terminator images]

theorem Ends.unique {items : List Item} {t t' : Nat} (ends : Ends items t) (ends' : Ends items t') :
    t = t' := by
  obtain ⟨front, images, rfl⟩ := ends
  obtain ⟨front', images', eq⟩ := ends'
  have last : Item.copy t .terminator images = .copy t' .terminator images' := by
    simpa using congrArg List.getLast? eq
  exact (Item.copy.inj last).1

theorem ends_dropWhile {items : List Item} {t : Nat} (ends : Ends items t) :
    Ends (items.dropWhile Item.isAlloca) t := by
  obtain ⟨front, images, rfl⟩ := ends
  induction front with
  | nil => exact ⟨[], images, rfl⟩
  | cons item front ih =>
    rw [List.cons_append, List.dropWhile_cons]
    split
    · exact ih
    · exact ⟨item :: front, images, rfl⟩

/-- In a finished block there is a place behind everything but the terminator. -/
theorem insertBehind_ok {items : List Item} {t n : Nat} (ends : Ends items t)
    {item : Item} (at_n : items[n]? = some item) (before : item.isTerminator = false) : ∃ items',
    insertBehind items n = some items' ∧ copies items' = copies items ∧ Ends items' t ∧
      ∀ item ∈ items', item ∈ items ∨ item = .cast := by
  have rest : Ends (items.drop (n + 1)) t := by
    obtain ⟨front, images, rfl⟩ := ends
    have inside : n < front.length := by
      have short := (List.getElem?_eq_some_iff.mp at_n).1
      rw [List.length_append, List.length_singleton] at short
      refine Nat.lt_of_le_of_ne (Nat.le_of_lt_succ short) ?_
      rintro rfl
      rw [List.getElem?_concat_length, Option.some.injEq] at at_n
      subst at_n
      exact nomatch before
    exact ⟨front.drop (n + 1), images, List.drop_append_of_le_length inside⟩
  obtain ⟨front, images, eq⟩ := ends_dropWhile rest
  have split : items = items.take (n + 1) ++ ((items.drop (n + 1)).takeWhile Item.isAlloca ++
      (items.drop (n + 1)).dropWhile Item.isAlloca) := by
    rw [List.takeWhile_append_dropWhile, List.take_append_drop]
  have found : insertBehind items n =
      some (items.take (n + 1) ++ (items.drop (n + 1)).takeWhile Item.isAlloca ++
      .cast :: (items.drop (n + 1)).dropWhile Item.isAlloca) := by
    unfold insertBehind
    split
    · rename_i none
      simp [none] at eq
    · rename_i some
      rw [some]
  refine ⟨_, found, ?_, ?_, ?_⟩
  · conv_rhs => rw [split]
    simp only [copies_append, copies_cast, List.append_assoc]
  · rw [eq]
    exact ⟨items.take (n + 1) ++ (items.drop (n + 1)).takeWhile Item.isAlloca ++ .cast ::
      front, images, by simp⟩
  · intro item mem
    rw [split]
    simp only [List.mem_append, List.mem_cons] at mem ⊢
    tauto

theorem copies_insertBeforeTerminator (items : List Item) :
    copies (insertBeforeTerminator items) = copies items := by
  conv_rhs => rw [← List.takeWhile_append_dropWhile (p := (!·.isTerminator)) (l := items)]
  rw [insertBeforeTerminator, copies_append, copies_cast, copies_append]

theorem mem_insertBeforeTerminator {items : List Item} {item : Item}
    (mem : item ∈ insertBeforeTerminator items) : item ∈ items ∨ item = .cast := by
  rcases List.mem_append.mp mem with front | back
  · exact .inl ((List.takeWhile_sublist _).subset front)
  · rcases List.mem_cons.mp back with rfl | back
    · exact .inr rfl
    · exact .inl ((List.dropWhile_sublist _).subset back)

@[simp] theorem image_setImage_self (st : State) (l : Label) (items : List Item) :
    (st.setImage l items).image l = items :=
  Function.update_self _ _ _

theorem image_setImage_of_ne (st : State) {l l' : Label} (items : List Item) (ne : l' ≠ l) :
    (st.setImage l items).image l' = st.image l' :=
  Function.update_of_ne ne _ _

theorem append_of_here {st : State} {l : Label} (here : st.here = l) (items : List Item) :
    st.append items = st.setImage l (st.image l ++ items) := by
  subst here
  rfl

/-! ## Images -/

def imageOf (vmap : Nat → Option Image) : Value → Option Image
  | .const c => some (.const c)
  | .arg k => some (.arg k)
  | .inst d => vmap d

def Images (vmap : Nat → Option Image) : List Value → List Image → Prop :=
  List.Forall₂ fun v image => imageOf vmap v = some image

def Incoming (vmap : Nat → Option Image) : List (Value × Label) → List (Image × Label) → Prop :=
  List.Forall₂ fun e e' => imageOf vmap e.1 = some e'.1 ∧ e.2 = e'.2

/-- What is entered for the instruction `d` of `A`. -/
inductive EntryOf {f : Function} (dec : Decisions f) (vmap : Nat → Option Image) (A : Block) :
    Nat → Image → Prop
  | phi {p : Phi} (hp : p ∈ A.phis) : EntryOf dec vmap A p.id (.copy p.id)
  | inst {i : Inst} (hi : i ∈ A.body) {images : List Image}
      (found : Images vmap (mappedOperands i.op) images) :
      EntryOf dec vmap A i.id (entry dec i images)

/-- What stands in the image of `A`: instructions of `A` that read the images of their operands,
phis with the images of what has been `read`, and casts. -/
inductive MadeFrom (vmap : Nat → Option Image) (read : Phi → List (Value × Label)) (A : Block) :
    Item → Prop
  | inst {i : Inst} (hi : i ∈ A.body) {images : List Image}
      (found : Images vmap (mappedOperands i.op) images) :
      MadeFrom vmap read A (.copy i.id (kind i.op) images)
  | term {images : List Image} (found : Images vmap A.term.operands images) :
      MadeFrom vmap read A (.copy A.termId .terminator images)
  | phi {p : Phi} (hp : p ∈ A.phis) {incoming : List (Image × Label)}
      (found : Incoming vmap (read p) incoming) :
      MadeFrom vmap read A (.phi p.id incoming)
  | cast : MadeFrom vmap read A .cast

/-- Entries stay. -/
def Extends (vmap vmap' : Nat → Option Image) : Prop :=
  ∀ d image, vmap d = some image → vmap' d = some image

theorem Extends.refl (vmap : Nat → Option Image) : Extends vmap vmap := fun _ _ entered => entered

section
variable {vmap vmap' : Nat → Option Image}

theorem Extends.trans {vmap'' : Nat → Option Image} (first : Extends vmap vmap')
    (second : Extends vmap' vmap'') : Extends vmap vmap'' :=
  fun d image entered => second d image (first d image entered)

theorem Extends.ne_none (sub : Extends vmap vmap') {d : Nat} (entered : vmap d ≠ none) :
    vmap' d ≠ none := by
  obtain ⟨image, eq⟩ := Option.ne_none_iff_exists'.mp entered
  rw [sub d image eq]
  exact Option.some_ne_none image

theorem Extends.update {n : Nat} (new : vmap n = none) (image : Image) :
    Extends vmap (Function.update vmap n (some image)) := by
  intro d image' entered
  have ne : d ≠ n := by
    rintro rfl
    rw [new] at entered
    cases entered
  rwa [Function.update_of_ne ne]

theorem Extends.imageOf (sub : Extends vmap vmap') {v : Value} {image : Image}
    (found : imageOf vmap v = some image) : RebuildWalk.imageOf vmap' v = some image := by
  cases v with
  | inst d => exact sub d image found
  | _ => exact found

theorem Images.mono {vs : List Value} {images : List Image} (found : Images vmap vs images)
    (sub : Extends vmap vmap') : Images vmap' vs images :=
  List.Forall₂.imp (fun _ _ eq => sub.imageOf eq) found

theorem Incoming.mono {es : List (Value × Label)} {incoming : List (Image × Label)}
    (found : Incoming vmap es incoming) (sub : Extends vmap vmap') : Incoming vmap' es incoming :=
  List.Forall₂.imp (fun _ _ eq => ⟨sub.imageOf eq.1, eq.2⟩) found

theorem EntryOf.mono {f : Function} {dec : Decisions f} {A : Block} {d : Nat} {image : Image}
    (entered : EntryOf dec vmap A d image) (sub : Extends vmap vmap') :
    EntryOf dec vmap' A d image := by
  cases entered with
  | phi hp => exact .phi hp
  | inst hi found => exact .inst hi (found.mono sub)

theorem EntryOf.mem_ids {f : Function} {dec : Decisions f} {A : Block} {d : Nat} {image : Image}
    (entered : EntryOf dec vmap A d image) : d ∈ A.ids := by
  cases entered with
  | phi hp => exact List.mem_append_left _ (List.mem_append_left _ (List.mem_map_of_mem hp))
  | inst hi => exact List.mem_append_left _ (List.mem_append_right _ (List.mem_map_of_mem hi))

theorem MadeFrom.mono {read : Phi → List (Value × Label)} {A : Block} {item : Item}
    (made : MadeFrom vmap read A item) (sub : Extends vmap vmap') :
    MadeFrom vmap' read A item := by
  cases made with
  | inst hi found => exact .inst hi (found.mono sub)
  | term found => exact .term (found.mono sub)
  | phi hp found => exact .phi hp (found.mono sub)
  | cast => exact .cast

end

/-! ## What is true during the walk -/

section
variable {f : Function} (dec : Decisions f)

/-- The values of a block have their entries. -/
structure Entered (st : State) (B : Block) : Prop where
  phis : ∀ p ∈ B.phis, st.vmap p.id ≠ none
  insts : ∀ i ∈ B.body, isStore i.op = false → st.vmap i.id ≠ none

/-- All of a block has been rebuilt. -/
structure Done (st : State) (B : Block) : Prop extends Entered st B where
  copies : copies (st.image B.label) = emittedIds dec B
  ends : Ends (st.image B.label) B.termId

/-- The blocks that have been visited are rebuilt, but for those that wait. Entries and image blocks
are made of images that were entered, and nothing has been added to a phi. -/
structure Good (waiting : List Label) (st : State) : Prop where
  known : st.visited ⊆ f.blocks.map Block.label
  nodup : st.visited.Nodup
  done : ∀ B ∈ f.blocks, B.label ∈ st.visited → B.label ∉ waiting → Done dec st B
  untouched : ∀ l, l ∉ st.visited → st.image l = []
  entries : ∀ d image, st.vmap d = some image →
    ∃ A ∈ f.blocks, A.label ∈ st.visited ∧ EntryOf dec st.vmap A d image
  placed : ∀ d n, st.vmap d = some (.copy n) →
    ∃ A ∈ f.blocks, n ∈ RebuildWalk.copies (st.image A.label)
  made : ∀ A ∈ f.blocks, ∀ item ∈ st.image A.label, MadeFrom st.vmap (fun _ => []) A item

/-- More has been rebuilt, but nothing of the blocks that wait. -/
structure Grows (f : Function) (waiting : List Label) (st st' : State) : Prop where
  visited : st.visited ⊆ st'.visited
  vmap : Extends st.vmap st'.vmap
  fresh : ∀ d, st.vmap d = none → st'.vmap d ≠ none → ∀ A ∈ f.blocks, d ∈ A.ids →
    A.label ∉ st.visited
  image : ∀ l ∈ waiting, st'.image l = st.image l

theorem Grows.refl (waiting : List Label) (st : State) : Grows f waiting st st :=
  ⟨fun _ h => h, .refl _, fun _ none some => absurd none some, fun _ _ => rfl⟩

theorem Grows.trans {waiting : List Label} {st st' st'' : State} (first : Grows f waiting st st')
    (second : Grows f waiting st' st'') :
    Grows f waiting st st'' := by
  refine ⟨List.Subset.trans first.visited second.visited, first.vmap.trans second.vmap, ?_,
    fun l hl => (second.image l hl).trans (first.image l hl)⟩
  intro d none some A hA mem
  by_cases between : st'.vmap d = .none
  · exact fun visited => second.fresh d between some A hA mem (first.visited visited)
  · exact first.fresh d none between A hA mem

/-- A block is being rebuilt: its phis and some of its instructions. -/
structure Working (waiting : List Label) (B : Block) (pre : List Inst)
    (start st : State) : Prop where
  good : Good dec (B.label :: waiting) st
  here : st.here = B.label
  begun : B.label ∈ st.visited
  unseen : B.label ∉ start.visited
  phis : ∀ p ∈ B.phis, st.vmap p.id ≠ none
  insts : ∀ i ∈ pre, isStore i.op = false → st.vmap i.id ≠ none
  own : ∀ d ∈ B.ids, st.vmap d ≠ none → d ∈ B.phis.map Phi.id ∨ d ∈ pre.map Inst.id
  copies : copies (st.image B.label) = B.phis.map Phi.id ++ (pre.filter (emitted dec)).map Inst.id
  grows : Grows f waiting start st
  more : start.visited.length < st.visited.length

/-- A run rebuilds a block that waits for no other, if the number of steps allows to visit all other
blocks. -/
def RunSpec (n : Nat) (run : Label → State → Except Fault State) : Prop :=
  0 < n → ∀ waiting st, ∀ B ∈ f.blocks, Good dec waiting st →
    (∀ w ∈ waiting, StrictDom f B.label w) →
    f.blocks.length ≤ st.visited.length + n →
    ∃ st', run B.label st = .ok st' ∧ Good dec waiting st' ∧ B.label ∈ st'.visited ∧
      Grows f waiting st st'

end

end RebuildWalk
