import ClamBC.LogicalInstructions
import ClamBC.LogicalMap
import ClamBC.LogicalSelection
import ClamBC.LogicalText

/-!
# Functions of counts with one return

The functions whose instructions read match counts, add them up, compare the sums with
constants and combine the results. In the map of such a function the node of a number is a
count or a sum of counts, and the node of a bit is a constant or has a text.
-/

namespace LogicalFragment

open Ir LogicalNode LogicalCompiler LogicalShape LogicalMap LogicalMeaning LogicalConjunction
  LogicalCompare LogicalRoutes LogicalInstructions LogicalPhi LogicalSelection LogicalText
  LogicalOffsets Fallible

/-- The address of a match count, with its number. -/
inductive CountAt (gv : GlobalId) : Value → Nat → Prop
  | first : CountAt gv (.const (.global gv)) 0
  | element (bits bits' : Nat) {k : Nat} (small : k < 2 ^ 32) :
      CountAt gv (.const (.getElementPtrExpr (.global gv) [.int bits 0, .int bits' k])) k

/-- The match counts that an instruction reads or adds up. -/
inductive Adds (gv : GlobalId) (f : Function) : Nat → List Nat → Prop
  | count {B : Block} {i : Inst} {vol : Bool} {ptr : Value} {k : Nat} (hB : B ∈ f.blocks)
      (hi : i ∈ B.body)
      (op : i.op = .load vol ptr) (address : CountAt gv ptr k) : Adds gv f i.id [k]
  | sum {B : Block} {i : Inst} {a b : Nat} {ks ls : List Nat} (hB : B ∈ f.blocks) (hi : i ∈ B.body)
      (op : i.op = .binary .add (.inst a) (.inst b)) (left : Adds gv f a ks)
      (right : Adds gv f b ls) :
      Adds gv f i.id (ks ++ ls)

/-- No sum of the function overflows. -/
def NoOverflow (gv : GlobalId) (f : Function) (counts : Counts) : Prop :=
  ∀ d ks, Adds gv f d ks → (ks.map (natCounts counts)).sum < 2 ^ 32

def unsigned : Predicate → Bool
  | .eq => true
  | .ne => true
  | .ugt => true
  | .uge => true
  | .ult => true
  | .ule => true
  | _ => false

section
variable (gv : GlobalId) (τ : Nat → Ty)

/-- A computed bit or one of the two constants. -/
inductive Bit : Value → Prop
  | inst {d : Nat} (typed : τ d = .int 1) : Bit (.inst d)
  | const {b : Nat} (small : b < 2) : Bit (.const (.int 1 b))

inductive Simple : Inst → Prop
  | count {id : Nat} {vol : Bool} {ptr : Value} {k : Nat} (address : CountAt gv ptr k) :
      Simple ⟨id, .int 32, .load vol ptr⟩
  | sum {id a b : Nat} (left : τ a = .int 32) (right : τ b = .int 32) :
      Simple ⟨id, .int 32, .binary .add (.inst a) (.inst b)⟩
  | compare {id a c : Nat} {pred : Predicate} (left : τ a = .int 32) (small : c < 2 ^ 32)
      (isUnsigned : unsigned pred = true) :
      Simple ⟨id, .int 1, .icmp pred (.inst a) (.const (.int 32 c))⟩
  | and {id : Nat} {a b : Value} (left : Bit τ a) (right : Bit τ b) :
      Simple ⟨id, .int 1, .binary .and a b⟩
  | or {id : Nat} {a b : Value} (left : Bit τ a) (right : Bit τ b) :
      Simple ⟨id, .int 1, .binary .or a b⟩
  | not {id : Nat} {a : Value} (operand : Bit τ a) :
      Simple ⟨id, .int 1, .binary .xor a (.const (.int 1 1))⟩
  | select {id : Nat} {c t e : Value} (cond : Bit τ c) (ifTrue : Bit τ t) (ifFalse : Bit τ e) :
      Simple ⟨id, .int 1, .select c t e⟩

inductive Ends : Term Value → Prop
  | br (l : Label) : Ends (.br l)
  | condBr {c : Value} (t e : Label) (cond : Bit τ c) : Ends (.condBr c t e)
  | ret {v : Value} (value : Bit τ v) : Ends (.ret (some v))

/-- The functions of the fragment, given the types of their instructions. -/
structure Fragment (f : Function) : Prop where
  insts : ∀ B ∈ f.blocks, ∀ i ∈ B.body, τ i.id = i.ty ∧ Simple gv τ i
  phis : ∀ B ∈ f.blocks, ∀ p ∈ B.phis, τ p.id = .int 1 ∧ ∀ e ∈ p.incoming, Bit τ e.1
  terms : ∀ B ∈ f.blocks, Ends τ B.term
  targets : ∀ B ∈ f.blocks, ∀ l ∈ B.term.successors, ∃ C ∈ f.blocks, C.label = l
  oneReturn : ∃! B, B ∈ f.blocks ∧ ∃ v, B.term = .ret v

end

/-! ## The nodes of numbers -/

/-- What `getAdd` makes of counts. -/
inductive Count : Node → List Word → Prop
  | subsig (i : Word) : Count (.subsig i) [i]
  | sums {is : List Word} (wide : 2 ≤ is.length) : Count (.sums .sum (is.map .subsig)) is

theorem Count.group {n : Node} {is : List Word} (count : Count n is) : Group n is := by
  cases count with
  | subsig i => exact .subsig i
  | sums wide => exact .sums nofun wide

theorem Count.whole {n : Node} {is : List Word} (count : Count n is) : Whole n := by
  cases count with
  | subsig i => rfl
  | sums wide =>
    refine wholeAll_iff.mpr fun c hc => ?_
    obtain ⟨i, -, rfl⟩ := List.mem_map.mp hc
    rfl

theorem Count.not_add {n : Node} {is : List Word} (count : Count n is) : isAdd n = false := by
  cases count <;> rfl

theorem count_sorted (is : List Word) (wide : 2 ≤ is.length) :
    ∃ js : List Word, Count (.sums .sum (sortChildren (is.map .subsig))) js ∧ js.Perm is := by
  obtain ⟨js, sorted, perm⟩ := sortChildren_subsigs is
  refine ⟨js, ?_, perm⟩
  rw [sorted]
  exact .sums (by rwa [perm.length_eq])

theorem getAdd_count {l r n : Node} {is js : List Word} (left : Count l is) (right : Count r js)
    (h : getAdd l r = .ok (some n)) : ∃ ks : List Word, Count n ks ∧ ks.Perm (is ++ js) := by
  cases right with
  | subsig j =>
    cases left with
    | subsig i =>
      cases h
      exact count_sorted [i, j] (by simp)
    | @sums is wide =>
      cases h
      obtain ⟨ks, count, perm⟩ := count_sorted (j :: is) (by simp only [List.length_cons]; omega)
      exact ⟨ks, count, perm.trans (List.perm_append_singleton j is).symm⟩
  | @sums js wide =>
    cases left with
    | subsig i =>
      cases h
      exact count_sorted (i :: js) (by simp only [List.length_cons]; omega)
    | @sums is wide' =>
      cases h
      rw [← List.map_append]
      exact count_sorted (is ++ js) (by rw [List.length_append]; omega)

section
variable {o : PtrOrder} {gv : GlobalId} {f : Function} {τ : Nat → Ty} {counts : Counts}
  {map : Nat → Option Ptr}

section
variable (gv f τ counts)

/-- What the node of an instruction looks like: that of a bit has a text, and that of a number is
the sum of the counts that the instruction adds up. -/
def Shaped (d : Nat) (n : Node) : Prop :=
  (τ d = .int 1 → Settles counts n) ∧
    (τ d = .int 32 → ∃ is ks, Count n is ∧ Adds gv f d ks ∧ (is.map BitVec.toNat).Perm ks)

def ShapedMap (map : Nat → Option Ptr) : Prop :=
  ∀ d n, map d = some (some n) → Shaped gv f τ counts d n

end

theorem ShapedMap.update (shaped : ShapedMap gv f τ counts map) {d : Nat} {p : Ptr}
    (here : ∀ n, p = some n → Shaped gv f τ counts d n) :
    ShapedMap gv f τ counts (Function.update map d (some p)) := by
  intro e n found
  by_cases same : e = d
  · subst same
    rw [Function.update_self] at found
    exact here n (Option.some.inj found)
  · rw [Function.update_of_ne same] at found
    exact shaped e n found

theorem ShapedMap.bit (shaped : ShapedMap gv f τ counts map) {v : Value} {n : Node} (bit : Bit τ v)
    (found : lookup map v = some (some n)) : Settles counts n := by
  cases bit with
  | inst typed => exact (shaped _ n found).1 typed
  | const small => cases found

theorem ShapedMap.number (shaped : ShapedMap gv f τ counts map)
    (noOverflow : NoOverflow gv f counts) {d : Nat} {n : Node} (typed : τ d = .int 32)
    (found : map d = some (some n)) : ∃ is, Count n is ∧ LogicalText.Fits counts is := by
  obtain ⟨is, ks, count, adds, perm⟩ := (shaped d n found).2 typed
  refine ⟨is, count, ?_⟩
  have total := noOverflow d ks adds
  rw [← (perm.map (natCounts counts)).sum_eq, List.map_map] at total
  exact total

theorem shaped_bit {d : Nat} {n : Node} (typed : τ d = .int 1) (settles : Settles counts n) :
    Shaped gv f τ counts d n := by
  refine ⟨fun _ => settles, fun number => ?_⟩
  rw [typed] at number
  cases number

theorem shaped_number {d : Nat} {n : Node} {is : List Word} {ks : List Nat} (typed : τ d = .int 32)
    (count : Count n is) (adds : Adds gv f d ks) (perm : (is.map BitVec.toNat).Perm ks) :
    Shaped gv f τ counts d n := by
  refine ⟨fun bit => ?_, fun _ => ⟨is, ks, count, adds, perm⟩⟩
  rw [typed] at bit
  cases bit

/-! ## The nodes of bits -/

theorem joined_settles : Joined o (fun _ => True) (Settles counts) where
  and := fun left right => settles_formed.getAnd (settle_pair left right)
  or := fun left right => settles_formed.getOr (settle_pair left right)
  nullNode := trivial
  missingEntry := trivial
  emptyRoute := trivial
  badCast := trivial

theorem andKept_settle {a b : Node} (left : Settles counts a) (right : Settles counts b) :
    AndKept [a, b] := andKept_of_noClash (noClash_popped_settle (settle_pair left right))

theorem compareOk_group {pred : Predicate} {n : Node} {is : List Word} {rhs : Word}
    (group : Group n is) (fits : LogicalText.Fits counts is) : CompareOk o pred n rhs := by
  cases pred with
  | eq => exact group.countSum.eqOk _
  | ne => exact ⟨group.countSum.eqOk _,
      fun e found => notOk_settles (getEQ_settles group fits found)⟩
  | ugt => exact group.countSum.moreOk _
  | uge => exact group.countSum.moreOk _
  | ult => exact group.countSum.lessOk _
  | ule => exact group.countSum.lessOk _
  | _ => trivial

theorem compares_group {pred : Predicate} {n : Node}
    {is : List Word} {rhs : Word} (group : Group n is) (fits : LogicalText.Fits counts is) :
    Compares o (fun _ => True) (Settles counts) pred n rhs := by
  obtain ⟨less, more⟩ := compared_group.getLT_getGT (o := o) settles_formed ⟨is, group, fits⟩
  have equal : Meets (fun _ => True) (Settles counts) (getEQ n rhs) :=
    negated_settles.equal ⟨is, group, fits⟩ rhs
  cases pred with
  | eq => exact equal
  | ne => exact equal.mono fun m settles => negated_settles.getNot settles
  | ugt => exact more rhs
  | uge => exact fun _ => more _
  | ult => exact less rhs
  | ule => exact fun _ => less _
  | _ => trivial

/-- The sum of two counts that can be added. -/
theorem processAdd_count {a b : Nat} {n : Node}
    (h : processAdd (lookup map) (.inst a) (.inst b) = .ok (.bind (some n))) :
    ∃ l r, map a = some (some l) ∧ map b = some (some r) ∧ getAdd l r = .ok (some n) := by
  unfold processAdd at h
  split at h
  · cases h
  · next p found =>
    simp only at h
    split at h
    · cases h
    · next q found' =>
      obtain ⟨l, left, h⟩ := bind_eq_ok.mp h
      obtain ⟨r, right, h⟩ := bind_eq_ok.mp h
      obtain ⟨s, sum, h⟩ := bind_eq_ok.mp h
      cases p with
      | none => cases left
      | some l' =>
        cases q with
        | none => cases right
        | some r' =>
          cases left
          cases right
          cases s with
          | none => cases h
          | some s =>
            simp only at h
            split_ifs at h
            · cases h
              exact ⟨l, r, found, found', sum⟩
            · cases h

theorem processLoad_count {ptr : Value} {k : Nat}
    {n : Node} (address : CountAt gv ptr k) (h : processLoad gv ptr = .ok (.bind (some n))) :
    n = .subsig (BitVec.ofNat 32 k) ∧ k < 2 ^ 32 := by
  cases address with
  | first =>
    cases h
    exact ⟨rfl, by decide⟩
  | element bits bits' small =>
    have fits : getZExtValue k = .ok k := by
      unfold getZExtValue
      rw [if_pos (by omega)]
    simp only [processLoad, ne_eq, not_true_eq_false, if_false, fits] at h
    cases h
    exact ⟨rfl, small⟩

/-- One instruction of the fragment. -/
theorem processInst_shaped (noOverflow : NoOverflow gv f counts) {B : Block}
    (hB : B ∈ f.blocks) {i : Inst} (hi : i ∈ B.body) (typed : τ i.id = i.ty)
    (simple : Simple gv τ i) (shaped : ShapedMap gv f τ counts map) {n : Node}
    (h : processInst o gv (lookup map) i = .ok (.bind (some n))) : Shaped gv f τ counts i.id n := by
  cases simple with
  | @count id vol ptr k address =>
    obtain ⟨rfl, small⟩ := processLoad_count address h
    refine shaped_number typed (.subsig _) (.count hB hi rfl address) ?_
    rw [List.map_singleton, BitVec.toNat_ofNat, Nat.mod_eq_of_lt small]
  | @sum id a b left right =>
    obtain ⟨l, r, foundL, foundR, sum⟩ := processAdd_count h
    obtain ⟨is, ks, countL, addsL, permL⟩ := (shaped a l foundL).2 left
    obtain ⟨js, ls, countR, addsR, permR⟩ := (shaped b r foundR).2 right
    obtain ⟨ns, count, perm⟩ := getAdd_count countL countR sum
    refine shaped_number typed count (.sum hB hi rfl addsL addsR) ((perm.map _).trans ?_)
    rw [List.map_append]
    exact permL.append permR
  | @compare id a c pred left small isUnsigned =>
    have bound : compareWith o (lookup map) pred (.inst a) (.const (.int 32 c)) =
      .ok (.bind (some n)) := h
    obtain ⟨bits, c', p, -, -, found, node⟩ := compareWith_found bound
    obtain ⟨m, rfl, -⟩ := @holds_compareNode counts _ _ _ _ _ node
    obtain ⟨is, count, fits⟩ := shaped.number noOverflow left found
    have bound : Meets (fun _ => True) (Binds (Settles counts))
        (compareNode o pred (some m) (BitVec.ofNat 32 c')) := by
      refine compareNode_meets joined_settles ?_
      rintro m' ⟨⟩
      exact compares_group count.group fits
    exact shaped_bit typed (bound.of_ok node _ rfl n rfl)
  | @and id a b left right =>
    obtain ⟨p, q, foundL, foundR, conjunction⟩ := processAnd_parts h
    exact shaped_bit typed
      ((getAndPtr_meets joined_settles (fun m same => shaped.bit left (same ▸ foundL))
      fun m same => shaped.bit right (same ▸ foundR)).of_ok conjunction)
  | @or id a b left right =>
    obtain ⟨p, q, foundL, foundR, disjunction⟩ := processOr_parts h
    exact shaped_bit typed
      ((getOrPtr_meets joined_settles (fun m same => shaped.bit left (same ▸ foundL))
      fun m same => shaped.bit right (same ▸ foundR)).of_ok disjunction)
  | @not id a operand =>
    simp only [processInst, processXor] at h
    split at h
    · cases h
    · next p found =>
      obtain ⟨m, negation, h⟩ := bind_eq_ok.mp h
      cases h
      exact shaped_bit typed ((getNotPtr_meets joined_settles fun m same =>
        negated_settles.getNot (shaped.bit operand (same ▸ found))).of_ok negation)
  | @select id c t e cond ifTrue ifFalse =>
    have bound := processSelect_meets (o := o) joined_settles
      (fun m found => ⟨shaped.bit cond found, negated_settles.getNot (shaped.bit cond found)⟩)
      (fun m => shaped.bit ifTrue) fun m => shaped.bit ifFalse
    exact shaped_bit typed (bound.of_ok h _ rfl n rfl)

/-! ## The nodes of phis -/

theorem Fragment.routeHolds (fragment : Fragment gv τ f) (shaped : ShapedMap gv f τ counts map)
    {start stop : Label} {r : Route} (h : r ∈ routesTo f start stop) :
    RouteHolds o (fun _ => True) (Settles counts) (lookup map) r := by
  intro hop inside c n cond found
  obtain ⟨last, walk⟩ := walk_of_mem_routesTo h
  rcases walk.cond inside with none | ⟨B, hB, c', t, e, term, cond'⟩
  · cases none.symm.trans cond
  · cases cond.symm.trans cond'
    have ends := fragment.terms B hB
    rw [term] at ends
    cases ends with
    | condBr t e bit =>
        exact ⟨shaped.bit bit found, fun _ => negated_settles.getNot (shaped.bit bit found)⟩

theorem processPHI_shaped (fragment : Fragment gv τ f) (shaped : ShapedMap gv f τ counts map)
    {B : Block} (hB : B ∈ f.blocks) {p : Phi} (hp : p ∈ B.phis) {n : Node}
    (h : processPHI o (lookup map) f B.label p = .ok (some n)) :
    Shaped gv f τ counts p.id n := by
  obtain ⟨typed, inputs⟩ := fragment.phis B hB p hp
  have bound :=
      processPHI_meets (o := o) (f := f) (l := B.label) (p := p) joined_settles fun E _ e he _ =>
    ⟨fun m => shaped.bit (inputs e he), fun r hr _ => fragment.routeHolds shaped hr⟩
  exact shaped_bit typed (bound.of_ok h n rfl)

/-- The map of a compiled function of the fragment. -/
theorem compile_shaped (fragment : Fragment gv τ f) (noOverflow : NoOverflow gv f counts)
    {s : State} {node : Node} (compiled : compile o (some gv) f = .ok (s, some node)) :
    ShapedMap gv f τ counts s.map := by
  refine compile_map ?_ ?_ ?_ compiled
  · intro B hB p hp map q shaped here
    refine shaped.update fun n same => ?_
    rw [same] at here
    exact processPHI_shaped fragment shaped hB hp here
  · intro B hB i hi map q shaped here
    refine shaped.update fun n same => ?_
    rw [same] at here
    obtain ⟨typed, simple⟩ := fragment.insts B hB i hi
    exact processInst_shaped noOverflow hB hi typed simple shaped here
  · exact nofun

end

end LogicalFragment
