import Mathlib
import SwapPricing.Proofs.Assembling
import SwapPricing.Proofs.Runs
import SwapPricing.Strategy

/-!
# Compiled strategies

The label steps of a strategy only say where jumps go.  What is compiled has one
record for each of the other steps, in order, and does not depend on what the labels
are called.
-/

namespace SwapPricing

/-!
# Steps
-/

/-- An instruction as a step gives it: jumps name labels, amounts stand in tables and
bytes in hexadecimal. -/
abbrev WrittenInstruction := Operation String (Table AssetId UInt64) String

namespace Step

def instruction? : Step → Option WrittenInstruction
  | label _ => none
  | instruction op => some op

/-- The name that a label step places. -/
def placed? : Step → Option String
  | label name => some name
  | instruction _ => none

/-- The same step with other names for the labels. -/
def renamed (f : String → String) : Step → Step
  | label name => label (f name)
  | instruction op => instruction (op.retarget f)

end Step

namespace Operation

variable {target entries payload target' entries' payload' : Type}

/-- The entries that an operation lists. -/
def entries? : Operation target entries payload → Option entries
  | staticBalances balances => some balances
  | dynamicBalances balances => some balances
  | growLiquidity deltas => some deltas
  | _ => none

/-- The bytes that an operation carries. -/
def payload? : Operation target entries payload → Option payload
  | salt bytes => some bytes
  | extruction _ input => some input
  | _ => none

/-- The same operation with its open places filled anew. -/
def filled (onTarget : target → target') (onEntries : entries → entries') (bytes : payload')
    (op : Operation target entries payload) : Operation target' entries' payload' :=
  Id.run <|
    op.traverse (fun t => pure (onTarget t)) (fun e => pure (onEntries e)) fun _ => pure bytes

end Operation

namespace Strategy

/-- The instructions of steps, in order. -/
def instructions (steps : List Step) : List WrittenInstruction :=
  steps.filterMap Step.instruction?

/-- The names that label steps place, in order. -/
def placedNames (steps : List Step) : List String :=
  steps.filterMap Step.placed?

/-- The names that jumps aim at. -/
def jumpedTo (steps : List Step) : List String :=
  (instructions steps).filterMap Operation.target?

/-- The same strategy with other names for its labels. -/
def renamed (f : String → String) (s : Strategy) : Strategy :=
  ⟨s.id, s.steps.map (Step.renamed f)⟩

/-- The program `p` is what the steps of `s` say. -/
structure CompiledTo (s : Strategy) (p : Program) : Prop where
  /-- No name is placed twice. -/
  nodup_placed : (placedNames s.steps).Nodup
  /-- Every name that a jump aims at is placed by one label step. -/
  count_placed : ∀ name ∈ jumpedTo s.steps, (placedNames s.steps).count name = 1
  size_records : p.records.size = (instructions s.steps).length
  /-- The records are the instructions, and each jump aims at the first instruction
  behind its label, or at the end. -/
  records : ∃ target : String → UInt16,
    (∀ front name back, s.steps = front ++ .label name :: back → name ∈ jumpedTo s.steps →
      (target name).toNat = p.offsetAt (instructions front).length) ∧
    ∀ (k : Nat) (op : WrittenInstruction), (instructions s.steps)[k]? = some op →
      ∃ r, p.records[k]? = some r ∧
        op.traverse (fun name => .ok (target name)) (fun t => .ok t.entries) Text.Hex.decode =
          .ok r.instruction
  /-- Entries stand in the order of the bytes of their assets. -/
  entries_sorted : ∀ r ∈ p.records, ∀ entries, r.instruction.entries? = some entries →
    entries.Pairwise fun a b => compare a.1.bytes b.1.bytes = .lt
  id_eq : p.id = s.id.getD (.ofContent p.bytes.toList)

end Strategy

/-!
# Names
-/

theorem idxOf_map_of_injective {f : String → String} (hf : f.Injective) (names : List String)
    (name : String) : (names.map f).idxOf (f name) = names.idxOf name := by
  induction names with
  | nil => rfl
  | cons first rest ih =>
      have hbeq : (f first == f name) = (first == name) := by
        rw [Bool.eq_iff_iff, beq_iff_eq, beq_iff_eq, hf.eq_iff]
      rw [List.map_cons, List.idxOf_cons, List.idxOf_cons, ih, hbeq]

namespace Strategy

variable {f : String → String}

theorem foldl_firstMentions_map (hf : f.Injective) (names seen : List String) :
    (names.map f).foldl (fun seen name => if name ∈ seen then seen else seen ++ [name])
        (seen.map f) =
      (names.foldl (fun seen name => if name ∈ seen then seen else seen ++ [name]) seen).map f := by
  induction names generalizing seen with
  | nil => rfl
  | cons name rest ih =>
      rw [List.map_cons, List.foldl_cons, List.foldl_cons, ← ih]
      simp only [List.mem_map_of_injective hf]
      split
      · rfl
      · rw [List.map_append]
        rfl

theorem firstMentions_map (hf : f.Injective) (names : List String) :
    firstMentions (names.map f) = (firstMentions names).map f :=
  foldl_firstMentions_map hf names []

theorem mem_foldl_firstMentions {names seen : List String} {name : String} :
    name ∈ names.foldl (fun seen name => if name ∈ seen then seen else seen ++ [name]) seen ↔
      name ∈ seen ∨ name ∈ names := by
  induction names generalizing seen with
  | nil => simp
  | cons first rest ih =>
      rw [List.foldl_cons, ih, List.mem_cons]
      split
      · rename_i hseen
        constructor
        · rintro (h | h)
          · exact Or.inl h
          · exact Or.inr (Or.inr h)
        · rintro (h | rfl | h)
          · exact Or.inl h
          · exact Or.inl hseen
          · exact Or.inr h
      · rw [List.mem_append, List.mem_singleton, or_assoc]

theorem mem_firstMentions {names : List String} {name : String} :
    name ∈ firstMentions names ↔ name ∈ names := by
  unfold firstMentions
  rw [mem_foldl_firstMentions]
  simp

theorem least?_eq_none_iff {names : List String} : least? names = none ↔ names = [] := by
  unfold least?
  rw [List.head?_eq_none_iff, ← List.length_eq_zero_iff, List.length_mergeSort,
    List.length_eq_zero_iff]

end Strategy

/-!
# Filling
-/

namespace Operation

variable {target entries target' entries' : Type} {op : Operation target entries String}
  {onTarget : target → target'} {onEntries : entries → entries'}

/-- An operation is filled by the bytes that its text denotes, if it carries one. -/
theorem traverse_eq_ok_iff_filled {ε : Type} {read : String → Except ε (List UInt8)}
    {op' : Operation target' entries' (List UInt8)} :
    op.traverse (fun t => .ok (onTarget t)) (fun e => .ok (onEntries e)) read = .ok op' ↔
      ∃ bytes, op' = op.filled onTarget onEntries bytes ∧
        ∀ text, op.payload? = some text → read text = .ok bytes := by
  have hpayload (build : List UInt8 → Operation target' entries' (List UInt8)) (text : String) :
      (do return build (← read text)) = (.ok op' : Except ε _) ↔
        ∃ bytes, op' = build bytes ∧
          ∀ text', some text = some text' → read text' = .ok bytes := by
    simp only [bind_eq_ok_iff, pure_eq_ok_iff, Option.some.injEq, forall_eq']
    constructor
    · rintro ⟨bytes, hbytes, rfl⟩
      exact ⟨bytes, rfl, hbytes⟩
    · rintro ⟨bytes, rfl, hbytes⟩
      exact ⟨bytes, hbytes, rfl⟩
  cases op with
  | salt text => exact hpayload .salt text
  | extruction logic text => exact hpayload (.extruction logic) text
  | _ =>
      constructor
      · intro h
        cases h
        exact ⟨[], rfl, nofun⟩
      · rintro ⟨bytes, rfl, -⟩
        rfl

variable (op) (bytes : List UInt8)

theorem target?_filled :
    (op.filled onTarget onEntries bytes).target? = op.target?.map onTarget := by
  cases op <;> rfl

theorem entries?_filled :
    (op.filled onTarget onEntries bytes).entries? = op.entries?.map onEntries := by
  cases op <;> rfl

/-- Only the place where the jump aims counts. -/
theorem retarget_filled {target'' : Type} {last : target''} {chosen : target → target''}
    (h : ∀ t, op.target? = some t → chosen t = last) :
    (op.filled onTarget onEntries bytes).retarget (fun _ => last) =
      op.filled chosen onEntries bytes := by
  cases op with
  | jump t => exact congrArg jump (h t rfl).symm
  | jumpIfAsset leg asset t => exact congrArg (jumpIfAsset leg asset) (h t rfl).symm
  | _ => rfl

theorem filled_retarget {source : Type} (before : source → target)
    (op : Operation source entries String) :
    (op.retarget before).filled onTarget onEntries bytes =
      op.filled (fun t => onTarget (before t)) onEntries bytes := by
  cases op <;> rfl

theorem target?_retarget (f : target → target') :
    (op.retarget f).target? = op.target?.map f := by
  cases op <;> rfl

theorem payload?_retarget (f : target → target') : (op.retarget f).payload? = op.payload? := by
  cases op <;> rfl

end Operation

/-!
# Lowering
-/

namespace Strategy

/-- The item of an instruction with given bytes. -/
def itemWith (names : List String) (op : WrittenInstruction) (bytes : List UInt8) : Item :=
  op.filled (fun name => .label (labelOf names name)) Table.entries bytes

/-- What an instruction is lowered to. -/
def BecomesItem (names : List String) (op : WrittenInstruction) (item : Item) : Prop :=
  ∃ bytes, item = itemWith names op bytes ∧
    ∀ text, op.payload? = some text → Text.Hex.decode text = .ok bytes

/-- What a step adds to the draft. -/
def BecomesCall (names : List String) : Step → Call → Prop
  | .label name, call => call = .place (labelOf names name)
  | .instruction op, call => ∃ item, BecomesItem names op item ∧ call = .append item

variable {names : List String} {steps : List Step}

theorem itemOf_eq_ok_iff {index : Nat} {op : WrittenInstruction} {item : Item} :
    itemOf names index op = .ok item ↔ BecomesItem names op item := by
  refine Operation.traverse_eq_ok_iff_filled.trans ?_
  unfold hexOf
  simp only [mapError_eq_ok_iff]
  rfl

theorem lowerStep_eq_ok_iff {l l' : Lowering} {step : Step} {index : Nat} :
    lowerStep names l step index = .ok l' ↔
      (∀ name, step.placed? = some name → name ∉ l.placed) ∧
        ∃ call, BecomesCall names step call ∧
          l' = ⟨l.draft.call call, step.placed?.toList ++ l.placed⟩ := by
  cases step with
  | label name =>
      simp only [lowerStep, Step.placed?, BecomesCall, Option.some.injEq, forall_eq',
        exists_eq_left]
      split
      · rename_i hplaced
        simp [hplaced]
      · rename_i hplaced
        simp only [Except.ok.injEq, hplaced, not_false_eq_true, true_and]
        exact eq_comm
  | instruction op =>
      simp only [lowerStep, bind_eq_ok_iff, itemOf_eq_ok_iff, Except.ok.injEq]
      constructor
      · rintro ⟨item, hitem, rfl⟩
        refine ⟨?_, .append item, ⟨item, hitem, rfl⟩, rfl⟩
        rintro name ⟨⟩
      · rintro ⟨-, call, ⟨item, hitem, rfl⟩, rfl⟩
        exact ⟨item, hitem, rfl⟩

/-- Names are new one after the other if the first, which may be missing, is new and the
others are new behind it. -/
theorem new_cons_iff {first : Option String} {more placed : List String} :
    ((first.toList ++ more).Nodup ∧ ∀ name ∈ first.toList ++ more, name ∉ placed) ↔
      (∀ name, first = some name → name ∉ placed) ∧
        more.Nodup ∧ ∀ name ∈ more, name ∉ first.toList ++ placed := by
  cases first with
  | none => simp
  | some name =>
      simp only [Option.toList_some, List.cons_append, List.nil_append, List.nodup_cons,
        forall_eq_or_imp, Option.some.injEq, forall_eq', List.mem_cons, not_or]
      constructor
      · rintro ⟨⟨hname, hmore⟩, hnew, hothers⟩
        exact ⟨hnew, hmore, fun other h => ⟨fun heq => hname (heq ▸ h), hothers other h⟩⟩
      · rintro ⟨hnew, hmore, hothers⟩
        exact ⟨⟨fun h => (hothers name h).1 rfl, hmore⟩, hnew, fun other h => (hothers other h).2⟩

/-- Steps are lowered if no name is placed twice, and every step adds its call. -/
theorem lowered_eq_ok_iff {start : Nat} {l l' : Lowering} :
    (steps.zipIdx start).foldlM (fun l (step, index) => lowerStep names l step index) l = .ok l' ↔
      ((placedNames steps).Nodup ∧ ∀ name ∈ placedNames steps, name ∉ l.placed) ∧
        ∃ calls, List.Forall₂ (BecomesCall names) steps calls ∧
          l' = ⟨calls.foldl Draft.call l.draft, (placedNames steps).reverse ++ l.placed⟩ := by
  induction steps generalizing start l with
  | nil =>
      constructor
      · intro h
        cases h
        exact ⟨⟨List.nodup_nil, List.forall_mem_nil _⟩, [], .nil, rfl⟩
      · rintro ⟨-, calls, hcalls, rfl⟩
        cases hcalls
        rfl
  | cons step rest ih =>
      have hplaced : placedNames (step :: rest) = step.placed?.toList ++ placedNames rest := by
        cases step <;> rfl
      rw [List.zipIdx_cons, List.foldlM_cons, hplaced]
      have hreverse : step.placed?.toList.reverse = step.placed?.toList := by
        cases step <;> rfl
      rw [new_cons_iff]
      simp only [bind_eq_ok_iff, lowerStep_eq_ok_iff, ih]
      constructor
      · rintro ⟨l, ⟨hfirst, call, hcall, rfl⟩, hmore, calls, hcalls, rfl⟩
        refine ⟨⟨hfirst, hmore⟩, call :: calls, .cons hcall hcalls, ?_⟩
        rw [List.reverse_append, List.append_assoc, hreverse]
        rfl
      · rintro ⟨⟨hfirst, hmore⟩, calls, hcalls, rfl⟩
        cases hcalls with
        | @cons _ call _ calls hcall hcalls =>
            refine ⟨_, ⟨hfirst, call, hcall, rfl⟩, hmore, calls, hcalls, ?_⟩
            rw [List.reverse_append, List.append_assoc, hreverse]
            rfl

theorem labelled_eq (set : InstructionSet) (names : List String) :
    labelled set names = Draft.made set (List.replicate names.length .newLabel) := by
  unfold labelled Draft.made
  rw [← List.map_const', List.foldl_map]
  rfl

/-- A strategy is lowered if no name is placed twice, every name that is mentioned is
placed, and every step adds its call. -/
theorem draft_eq_ok_iff {s : Strategy} {set : InstructionSet} {d : Draft} :
    s.draft set = .ok d ↔
      (placedNames s.steps).Nodup ∧ (∀ name ∈ s.labelNames, name ∈ placedNames s.steps) ∧
        ∃ calls, List.Forall₂ (BecomesCall s.labelNames) s.steps calls ∧
          d = Draft.made set (List.replicate s.labelNames.length .newLabel ++ calls) := by
  simp only [draft, bind_eq_ok_iff, lowered_eq_ok_iff, List.append_nil]
  constructor
  · rintro ⟨l, ⟨⟨hnodup, -⟩, calls, hcalls, rfl⟩, h⟩
    split at h
    · cases h
    · rename_i hleast
      cases h
      refine ⟨hnodup, ?_, calls, hcalls, ?_⟩
      · intro name hname
        have hnone := List.filter_eq_nil_iff.mp (least?_eq_none_iff.mp hleast) name hname
        simpa using hnone
      · rw [labelled_eq]
        exact List.foldl_append.symm
  · rintro ⟨hnodup, hplaced, calls, hcalls, rfl⟩
    refine ⟨_, ⟨⟨hnodup, fun _ _ => List.not_mem_nil⟩, calls, hcalls, rfl⟩, ?_⟩
    have hleast : least? (s.labelNames.filter (· ∉ (placedNames s.steps).reverse)) = none := by
      rw [least?_eq_none_iff, List.filter_eq_nil_iff]
      intro name hname
      simpa using hplaced name hname
    simp only [hleast, labelled_eq]
    exact congrArg Except.ok List.foldl_append.symm

/-!
# Calls of a strategy
-/

theorem jumpedTo_subset_labelNames {s : Strategy} {name : String} (h : name ∈ jumpedTo s.steps) :
    name ∈ s.labelNames := by
  rcases List.mem_filterMap.mp h with ⟨op, hop, htarget⟩
  rcases List.mem_filterMap.mp hop with ⟨step, hstep, hinstruction⟩
  refine mem_firstMentions.mpr (List.mem_filterMap.mpr ⟨step, hstep, ?_⟩)
  cases step with
  | label other => cases hinstruction
  | instruction op' =>
      cases hinstruction
      exact htarget

section Calls

variable {calls : List Call}

/-- The instructions of steps become the items of their calls. -/
theorem forall₂_items (h : List.Forall₂ (BecomesCall names) steps calls) :
    List.Forall₂ (BecomesItem names) (instructions steps) (pushed calls) := by
  induction h with
  | nil => exact .nil
  | @cons step call _ _ hcall _ ih =>
      cases step with
      | label name =>
          cases hcall
          exact ih
      | instruction op =>
          rcases hcall with ⟨item, hitem, rfl⟩
          exact .cons hitem ih

theorem exists_front_of_label {front : List Step} {name : String} {back : List Step}
    (h : List.Forall₂ (BecomesCall names) (front ++ .label name :: back) calls) :
    ∃ before after, calls = before ++ .place (labelOf names name) :: after ∧
      List.Forall₂ (BecomesCall names) front before := by
  induction front generalizing calls with
  | nil =>
      rcases List.forall₂_cons_left_iff.mp h with ⟨call, after, rfl, -, rfl⟩
      exact ⟨[], after, rfl, .nil⟩
  | cons step rest ih =>
      rcases List.forall₂_cons_left_iff.mp h with ⟨call, more, hcall, hmore, rfl⟩
      rcases ih hmore with ⟨before, after, rfl, hbefore⟩
      exact ⟨call :: before, after, rfl, .cons hcall hbefore⟩

end Calls

/-!
# Compilation
-/

section Compilation

variable {s : Strategy} {set : InstructionSet} {p : Program}

theorem compile_eq_ok_iff :
    s.compile set = .ok p ↔
      ∃ d bytes, s.draft set = .ok d ∧ d.encode = .ok bytes ∧
        Program.decode set (s.id.getD (.ofContent bytes)) bytes = .ok p := by
  simp only [compile, bind_eq_ok_iff, mapError_eq_ok_iff, exists_and_left]

theorem build_of_compile (h : s.compile set = .ok p) :
    ∃ d, s.draft set = .ok d ∧ d.build (s.id.getD (.ofContent p.bytes.toList)) = .ok p := by
  rcases compile_eq_ok_iff.mp h with ⟨d, bytes, hdraft, hencode, hdecode⟩
  rcases draft_eq_ok_iff.mp hdraft with ⟨-, -, calls, -, hd⟩
  have hset : d.set = set := by
    rw [hd, Draft.set_made]
  have hbytes : p.bytes.toList = bytes := by
    rcases Program.decode_eq_ok_iff.mp hdecode with ⟨is, -, rfl⟩
    rfl
  refine ⟨d, hdraft, ?_⟩
  unfold Draft.build
  rw [hencode, ok_bind, hset, hbytes, hdecode]

/-- The offset of the label of a name. -/
def landing (d : Draft) (names : List String) (name : String) : UInt16 :=
  (d.resolve d.offsets (.label (labelOf names name))).toOption.getD 0

theorem landing_eq {d : Draft} {name : String} {offset : UInt16}
    (h : d.resolve d.offsets (.label (labelOf names name)) = .ok offset) :
    landing d names name = offset := by
  unfold landing
  rw [h]
  rfl

section Reading

variable {d : Draft} {op : WrittenInstruction} {item : Item} {i : Instruction}

theorem target?_itemWith {bytes : List UInt8} {name : String} (h : op.target? = some name) :
    (itemWith names op bytes).target? = some (.label (labelOf names name)) := by
  unfold itemWith
  rw [Operation.target?_filled, h]
  rfl

theorem resolve_of_resolves (hitem : BecomesItem names op item) (hi : d.Resolves item i)
    {name : String} (hname : op.target? = some name) :
    d.resolve d.offsets (.label (labelOf names name)) = .ok (landing d names name) := by
  rcases hitem with ⟨bytes, rfl, -⟩
  rcases Item.traverse_eq_ok_iff.mp hi with ⟨offset, -, hresolve⟩
  have hoffset := hresolve _ (target?_itemWith hname)
  rw [landing_eq hoffset, hoffset]

/-- A record reads its instruction as it is written. -/
theorem read_of_resolves (hitem : BecomesItem names op item) (hi : d.Resolves item i) :
    op.traverse (fun name => .ok (landing d names name)) (fun t => .ok t.entries)
      Text.Hex.decode = .ok i := by
  rcases hitem with ⟨bytes, rfl, hbytes⟩
  rcases Item.traverse_eq_ok_iff.mp hi with ⟨offset, rfl, hresolve⟩
  refine Operation.traverse_eq_ok_iff_filled.mpr ⟨bytes, ?_, hbytes⟩
  apply Operation.retarget_filled
  intro name hname
  exact landing_eq (hresolve _ (target?_itemWith hname))

end Reading

theorem pushed_replicate_newLabel (count : Nat) :
    pushed (List.replicate count .newLabel) = [] := by
  unfold pushed
  rw [List.filterMap_eq_nil_iff]
  intro call hcall
  rw [List.eq_of_mem_replicate hcall]
  rfl

theorem exists_getElem?_of_forall₂ {α β : Type} {R : α → β → Prop} {as : List α} {bs : List β}
    (h : List.Forall₂ R as bs) {k : Nat} {a : α} (ha : as[k]? = some a) :
    ∃ b, bs[k]? = some b ∧ R a b := by
  rcases List.getElem?_eq_some_iff.mp ha with ⟨hlt, rfl⟩
  have hlt' : k < bs.length := h.length_eq ▸ hlt
  exact ⟨bs[k], List.getElem?_eq_getElem hlt', h.get hlt hlt'⟩

section Records

variable {calls : List Call} {d : Draft} {is : List Instruction}

theorem exists_resolved_of_written (hitems : List.Forall₂ (BecomesItem names) (instructions steps)
    (pushed calls)) (his : List.Forall₂ d.Resolves (pushed calls) is) {k : Nat}
    {op : WrittenInstruction} (hop : (instructions steps)[k]? = some op) :
    ∃ i item, is[k]? = some i ∧ BecomesItem names op item ∧ d.Resolves item i := by
  rcases exists_getElem?_of_forall₂ hitems hop with ⟨item, hitem, hbecomes⟩
  rcases exists_getElem?_of_forall₂ his hitem with ⟨i, hi, hresolves⟩
  exact ⟨i, item, hi, hbecomes, hresolves⟩

/-- Every record comes from an instruction of the strategy. -/
theorem exists_written_of_mem (hitems : List.Forall₂ (BecomesItem names) (instructions steps)
    (pushed calls)) (his : List.Forall₂ d.Resolves (pushed calls) is) {i : Instruction}
    (hi : i ∈ is) : ∃ op item, BecomesItem names op item ∧ d.Resolves item i := by
  rcases List.getElem?_of_mem hi with ⟨k, hk⟩
  have hlt : k < (instructions steps).length := by
    rw [hitems.length_eq, his.length_eq]
    exact (List.getElem?_eq_some_iff.mp hk).1
  rcases exists_resolved_of_written hitems his (List.getElem?_eq_getElem hlt) with
    ⟨i', item, hi', hbecomes, hresolves⟩
  rw [hk] at hi'
  cases hi'
  exact ⟨_, item, hbecomes, hresolves⟩

theorem entries_sorted_of_resolves {op : WrittenInstruction} {item : Item} {i : Instruction}
    (hitem : BecomesItem names op item) (hi : d.Resolves item i) {entries : Entries}
    (hentries : i.entries? = some entries) :
    entries.Pairwise fun a b => compare a.1.bytes b.1.bytes = .lt := by
  rcases Operation.traverse_eq_ok_iff_filled.mp (read_of_resolves hitem hi) with ⟨bytes, rfl, -⟩
  rw [Operation.entries?_filled] at hentries
  rcases Option.map_eq_some_iff.mp hentries with ⟨table, -, rfl⟩
  exact table.sorted

end Records

theorem compiledTo_of_compile (h : s.compile set = .ok p) : CompiledTo s p := by
  rcases build_of_compile h with ⟨d, hdraft, hbuild⟩
  rcases draft_eq_ok_iff.mp hdraft with ⟨hnodup, hplaced, calls, hcalls, hd⟩
  rcases Draft.build_eq_ok hbuild with ⟨is, his, hp, hid, -⟩
  have hfault := Draft.fault_of_build hbuild
  have hmade := Draft.madeBy_made set (List.replicate s.labelNames.length .newLabel ++ calls)
  rw [← hd] at hmade
  have hpushed (more : List Call) :
      pushed (List.replicate s.labelNames.length .newLabel ++ more) = pushed more := by
    rw [pushed_append, pushed_replicate_newLabel, List.nil_append]
  have hitems := forall₂_items hcalls
  have his' : List.Forall₂ d.Resolves (pushed calls) is := by
    rw [hmade.items, hpushed] at his
    exact his
  refine ⟨hnodup, ?_, ?_, ⟨landing d s.labelNames, ?_, ?_⟩, ?_, hid⟩
  · intro name hname
    exact List.count_eq_one_of_mem hnodup (hplaced name (jumpedTo_subset_labelNames hname))
  · rw [hp.size_eq, ← his'.length_eq, ← hitems.length_eq]
  · intro front name back hsteps hname
    rcases List.mem_filterMap.mp hname with ⟨op, hop, htarget⟩
    rcases List.getElem?_of_mem hop with ⟨k, hk⟩
    rcases exists_resolved_of_written hitems his' hk with ⟨i, item, -, hitem, hi⟩
    have hoffset := resolve_of_resolves hitem hi htarget
    rw [hsteps] at hcalls
    rcases exists_front_of_label hcalls with ⟨before, after, rfl, hbefore⟩
    rw [hmade.toNat_eq_offsetAt hfault his hp hoffset (List.append_assoc _ before _).symm, hpushed,
      (forall₂_items hbefore).length_eq]
  · intro k op hop
    rcases exists_resolved_of_written hitems his' hop with ⟨i, item, hk, hitem, hi⟩
    refine ⟨⟨extent (is.take k), i⟩, ?_, read_of_resolves hitem hi⟩
    rw [hp.getElem?_records, hk]
    rfl
  · intro r hr entries hentries
    rcases exists_written_of_mem hitems his' (hp.mem_records hr) with ⟨op, item, hitem, hi⟩
    exact entries_sorted_of_resolves hitem hi hentries

end Compilation

/-!
# Renaming
-/

section Renaming

variable {f : String → String} {s : Strategy} {set : InstructionSet}

theorem labelNames_renamed (hf : f.Injective) : (s.renamed f).labelNames = s.labelNames.map f := by
  have hnames : (s.steps.map (Step.renamed f)).filterMap Step.name? =
      (s.steps.filterMap Step.name?).map f := by
    rw [List.filterMap_map, List.map_filterMap]
    congr 1
    funext step
    cases step with
    | label name => rfl
    | instruction op => exact op.target?_retarget f
  show firstMentions ((s.steps.map (Step.renamed f)).filterMap Step.name?) = _
  rw [hnames, firstMentions_map hf]
  rfl

theorem placedNames_renamed :
    placedNames (s.renamed f).steps = (placedNames s.steps).map f := by
  show (s.steps.map (Step.renamed f)).filterMap Step.placed? = _
  unfold placedNames
  rw [List.filterMap_map, List.map_filterMap]
  congr 1
  funext step
  cases step <;> rfl

theorem becomesCall_renamed (hf : f.Injective) {names : List String} {step : Step} {call : Call} :
    BecomesCall (names.map f) (step.renamed f) call ↔ BecomesCall names step call := by
  have hlabel (name : String) : labelOf (names.map f) (f name) = labelOf names name :=
    congrArg Label.mk (idxOf_map_of_injective hf names name)
  cases step with
  | label name =>
      show call = .place (labelOf (names.map f) (f name)) ↔ call = .place (labelOf names name)
      rw [hlabel]
  | instruction op =>
      have hitem (bytes : List UInt8) :
          itemWith (names.map f) (op.retarget f) bytes = itemWith names op bytes := by
        unfold itemWith
        rw [Operation.filled_retarget]
        simp only [hlabel]
      simp only [Step.renamed, BecomesCall, BecomesItem, hitem, Operation.payload?_retarget]

theorem draft_renamed (hf : f.Injective) {d : Draft} :
    (s.renamed f).draft set = .ok d ↔ s.draft set = .ok d := by
  have hcalls (calls : List Call) :
      List.Forall₂ (BecomesCall (s.labelNames.map f)) (s.renamed f).steps calls ↔
        List.Forall₂ (BecomesCall s.labelNames) s.steps calls := by
    show List.Forall₂ _ (s.steps.map (Step.renamed f)) calls ↔ _
    rw [List.forall₂_map_left_iff]
    simp only [becomesCall_renamed hf]
  rw [draft_eq_ok_iff, draft_eq_ok_iff, labelNames_renamed hf, placedNames_renamed,
    List.nodup_map_iff hf, List.length_map]
  simp only [List.forall_mem_map, List.mem_map_of_injective hf, hcalls]

theorem compile_renamed (hf : f.Injective) {p : Program} :
    (s.renamed f).compile set = .ok p ↔ s.compile set = .ok p := by
  rw [compile_eq_ok_iff, compile_eq_ok_iff]
  simp only [draft_renamed hf]
  rfl

end Renaming

/-- What is compiled is what the steps say, whatever the labels are called. -/
theorem compiled_as_written (s : Strategy) (set : InstructionSet) :
    (∀ p, s.compile set = .ok p → CompiledTo s p) ∧
      ∀ f : String → String, f.Injective → ∀ p,
        (s.renamed f).compile set = .ok p ↔ s.compile set = .ok p :=
  ⟨fun _ => compiledTo_of_compile, fun _ hf _ => compile_renamed hf⟩

/-- A jump over a fee, a label that no jump aims at on the same spot, and a jump over
the salt to the end. -/
def skippingStrategy : Strategy where
  id := some (.single 80)
  steps := [
    .instruction (.staticBalances ((Table.empty.insert (.single 66) 9).insert (.single 65) 4)),
    .instruction (.jumpIfAsset .input (.single 65) "swap"), .instruction (.flatFee .input 30),
    .label "swap", .label "unused", .instruction .solve, .instruction (.jump "end"),
    .instruction (.salt "0aFF"), .label "end"]

/-- The balances stand in the order of the assets, and the jumps find their labels. -/
def skippingProgram : Program where
  id := .single 80
  bytes := (Operation.recorded 7 (.staticBalances [(.single 65, 4), (.single 66, 9)]) ++
    Operation.recorded 1 (.jumpIfAsset .input (.single 65) 122) ++
    Operation.recorded 17 (.flatFee .input 30) ++ Operation.recorded 10 .solve ++
    Operation.recorded 0 (.jump 132) ++ Operation.recorded 6 (.salt [10, 255])).toArray
  records := #[⟨0, .staticBalances [(.single 65, 4), (.single 66, 9)]⟩,
    ⟨82, .jumpIfAsset .input (.single 65) 122⟩, ⟨118, .flatFee .input 30⟩, ⟨122, .solve⟩,
    ⟨124, .jump 132⟩, ⟨128, .salt [10, 255]⟩]

theorem skipping_strategy_compiled_as_written :
    skippingStrategy.compile .full = .ok skippingProgram ∧
      CompiledTo skippingStrategy skippingProgram ∧
      (skippingStrategy.renamed ("x" ++ ·)).compile .full = .ok skippingProgram := by
  have hcompile : skippingStrategy.compile .full = .ok skippingProgram := by decide +kernel
  have hinjective : Function.Injective ("x" ++ ·) := fun _ _ h => (String.append_right_inj "x").mp h
  have hwritten := compiled_as_written skippingStrategy .full
  exact ⟨hcompile, hwritten.1 _ hcompile, (hwritten.2 _ hinjective _).mpr hcompile⟩

end Strategy
end SwapPricing
