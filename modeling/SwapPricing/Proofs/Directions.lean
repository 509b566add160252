import Mathlib
import SwapPricing.Proofs.Layout
import SwapPricing.Proofs.Mirroring

/-!
# Directions

Mirrored instructions have opcodes, sizes and jump targets of the instructions
themselves, so the mirror image of a program is a program.  Exchanging the two
traded assets turns the trade around, and so the two directions of a trade are
priced alike.
-/

namespace SwapPricing

variable {σ : Equiv.Perm AssetId}

/-!
# Mirrored instructions
-/

namespace Operation

theorem length_entryBytes_renamed (entries : Entries) :
    (entryBytes (Entries.renamed σ entries)).length = (entryBytes entries).length := by
  rw [Reader.length_entryBytes, Reader.length_entryBytes]
  unfold Entries.renamed
  rw [List.length_map]

theorem length_arguments_mirrored (i : Instruction) :
    (i.mirrored σ).arguments.length = i.arguments.length := by
  cases i with
  | jumpIfAsset leg asset destination =>
      simp only [mirrored, arguments, List.length_append, Identifier.length_bytes]
  | takerBalance asset least =>
      simp only [mirrored, arguments, List.length_append, Identifier.length_bytes]
  | takerShare asset least =>
      simp only [mirrored, arguments, List.length_append, Identifier.length_bytes]
  | staticBalances balances => exact length_entryBytes_renamed balances
  | dynamicBalances balances => exact length_entryBytes_renamed balances
  | growLiquidity deltas => exact length_entryBytes_renamed deltas
  | growPriceRange lower higher =>
      simp only [mirrored, arguments, List.length_append, LittleEndian.length_bytes]
  | minRateAdjust bound =>
      simp only [mirrored, arguments, List.length_append, LittleEndian.length_bytes]
  | minRateRequire bound =>
      simp only [mirrored, arguments, List.length_append, LittleEndian.length_bytes]
  | valuationStatic valuation => simp only [mirrored, arguments, LittleEndian.length_bytes]
  | _ => rfl

theorem target?_mirrored (i : Instruction) : (i.mirrored σ).target? = i.target? := by
  cases i <;> simp only [mirrored, target?]

theorem isConditional_mirrored (i : Instruction) :
    (i.mirrored σ).isConditional = i.isConditional := by
  cases i <;> simp only [mirrored, isConditional]

theorem inRange_mirrored {i : Instruction} (h : i.InRange) : (i.mirrored σ).InRange := by
  cases i with
  | minRateAdjust bound => exact And.symm h
  | minRateRequire bound => exact And.symm h
  | valuationStatic valuation =>
      have hopposite := opposite_valid_iff.mpr h
      exact hopposite
  | _ => exact h

theorem recordable_mirrored {i : Instruction} (h : i.Recordable) :
    (i.mirrored σ).Recordable := by
  constructor
  · exact inRange_mirrored h.inRange
  · rw [length_arguments_mirrored]
    exact h.short

end Operation

/-!
# Mirrored programs
-/

theorem placed_mirrored (offset : Nat) (is : List Instruction) :
    Record.placed offset (is.map (Operation.mirrored σ)) =
      (Record.placed offset is).map (Record.mirrored σ) := by
  induction is generalizing offset with
  | nil => rfl
  | cons i rest ih =>
      rw [List.map_cons, Record.placed, Record.placed, Operation.length_arguments_mirrored, ih]
      rfl

theorem extent_mirrored (is : List Instruction) :
    extent (is.map (Operation.mirrored σ)) = extent is := by
  induction is with
  | nil => rfl
  | cons i rest ih =>
      rw [List.map_cons, extent_cons, extent_cons, ih, Operation.recordSize,
        Operation.length_arguments_mirrored]
      rfl

/-- Aims are offsets, and mirror images stand where the records stand. -/
theorem Record.aimsInto_mirrored {records : List Record} {size : Nat} {r : Record}
    (h : r.AimsInto records size) :
    (r.mirrored σ).AimsInto (records.map (Record.mirrored σ)) size := by
  intro destination htarget
  have htarget' : r.instruction.target? = some destination := by
    rw [← Operation.target?_mirrored]
    exact htarget
  rcases h destination htarget' with ⟨hlands, hforward⟩
  constructor
  · rcases hlands with hend | ⟨other, hother, hoffset⟩
    · exact Or.inl hend
    · exact Or.inr ⟨other.mirrored σ, List.mem_map_of_mem hother, hoffset⟩
  · intro hconditional
    apply hforward
    rw [← Operation.isConditional_mirrored]
    exact hconditional

/-- The mirror images of encoded instructions have an encoding of the same
length. -/
theorem Encodes.exists_mirrored (σ : Equiv.Perm AssetId) {set : InstructionSet}
    {is : List Instruction} {bytes : List UInt8} (h : Encodes set is bytes) :
    ∃ image, image.length = bytes.length ∧ Encodes set (is.map (Operation.mirrored σ)) image := by
  have hwired : ∀ i ∈ is.map (Operation.mirrored σ), set.contains i.opcode = true := by
    rw [List.forall_mem_map]
    intro i hi
    rw [Operation.opcode_mirrored]
    exact InstructionSet.contains_of_encode? h.encode?_eq i hi
  rcases InstructionSet.exists_encode? hwired with ⟨image, himage⟩
  have hlength : image.length = bytes.length := by
    rw [length_encode? himage, extent_mirrored, length_encode? h.encode?_eq]
  refine ⟨image, hlength, ?_, himage, ?_⟩
  · rw [List.forall_mem_map]
    intro i hi
    exact Operation.recordable_mirrored (h.recordable i hi)
  · rw [placed_mirrored, hlength]
    rw [List.forall_mem_map]
    intro r hr
    exact Record.aimsInto_mirrored (h.aims r hr)

theorem Program.exists_decode_mirrored (σ : Equiv.Perm AssetId) {set : InstructionSet}
    {id : ProgramId} {bytes : List UInt8} {program : Program}
    (h : decode set id bytes = .ok program) :
    ∃ image, image.length = bytes.length ∧
      decode set id image = .ok (program.mirrored σ image.toArray) := by
  rcases decode_eq_ok_iff.mp h with ⟨is, hencodes, rfl⟩
  rcases hencodes.exists_mirrored σ with ⟨image, hlength, himage⟩
  refine ⟨image, hlength, decode_eq_ok_iff.mpr ⟨_, himage, ?_⟩⟩
  rw [placed_mirrored, ← List.map_toArray]
  rfl

/-!
# Exchanging the traded assets
-/

namespace Identifier

variable {kind : IdentifierKind} {a b : Identifier kind}

theorem precedes_comm (h : a ≠ b) : b.precedes a = !a.precedes b := by
  have hswap : compare b a = (compare a b).swap := Std.OrientedCmp.eq_swap
  have hne : compare a b ≠ .eq := fun heq => h (Std.LawfulEqCmp.eq_of_compare heq)
  unfold precedes
  rw [hswap]
  cases hcompare : compare a b with
  | lt => rfl
  | eq => exact absurd hcompare hne
  | gt => rfl

end Identifier

namespace Query

/-- The query trades `a` and `b`, in either direction. -/
def Between (a b : AssetId) (q : Query) : Prop :=
  q.assetIn = a ∧ q.assetOut = b ∨ q.assetIn = b ∧ q.assetOut = a

theorem turnedBy_swap {a b : AssetId} {q : Query} (hne : a ≠ b) (hq : q.Between a b) :
    q.TurnedBy (Equiv.swap a b) := by
  unfold TurnedBy renamed inputIsLower
  rcases hq with ⟨hin, hout⟩ | ⟨hin, hout⟩
  · simp only [hin, hout, Equiv.swap_apply_left, Equiv.swap_apply_right]
    exact Identifier.precedes_comm hne
  · simp only [hin, hout, Equiv.swap_apply_left, Equiv.swap_apply_right]
    exact Identifier.precedes_comm hne.symm

end Query

namespace Machine

/-- A program without external logic prices both directions of a trade alike.
Where two assets are exchanged, the parts of every pair for the lower and the
higher asset are exchanged, and every valuation is taken from one, the program is
again a program, as long as it was; and every quote and every swap between the two
assets ends as it did, failures included, up to that exchange. -/
theorem directions_priced_alike {set : InstructionSet} {id : ProgramId} {bytes : List UInt8}
    {program : Program} (hdecode : Program.decode set id bytes = .ok program)
    (hplain : ∀ r ∈ program.records, r.opcode ≠ .extruction) {a b : AssetId} (hne : a ≠ b) :
    ∃ image, image.length = bytes.length ∧
      Program.decode set id image = .ok (program.mirrored (Equiv.swap a b) image.toArray) ∧
      ∀ (query : Query) (environment : Environment) (external rival : ExternalLogic)
        (limit : UInt32) (store : Order.Store), query.Between a b →
        quote (program.mirrored (Equiv.swap a b) image.toArray) (query.renamed (Equiv.swap a b))
            (environment.mirrored (Equiv.swap a b)) limit (store.renamed (Equiv.swap a b)) =
          reflect (Outcome.mirrored (Equiv.swap a b))
            (quote program query environment limit store) ∧
        swap (program.mirrored (Equiv.swap a b) image.toArray) (query.renamed (Equiv.swap a b))
            (environment.mirrored (Equiv.swap a b)) rival limit
            (store.renamed (Equiv.swap a b)) =
          (reflect (Outcome.mirrored (Equiv.swap a b))
              (swap program query environment external limit store).1,
            (swap program query environment external limit store).2.renamed
              (Equiv.swap a b)) := by
  rcases Program.exists_decode_mirrored (Equiv.swap a b) hdecode with
    ⟨image, hlength, himage⟩
  have hbytes : image.toArray.size = program.bytes.size := by
    rcases Program.decode_eq_ok_iff.mp hdecode with ⟨is, -, rfl⟩
    exact hlength
  refine ⟨image, hlength, himage, ?_⟩
  intro query environment external rival limit store hbetween
  have hturned := Query.turnedBy_swap hne hbetween
  exact ⟨quote_mirrored hbytes hturned hplain, swap_mirrored hbytes hturned hplain⟩

def valuedBytes : List UInt8 :=
  Operation.recorded 8 (.dynamicBalances [(.single 65, 1000000), (.single 66, 2000000)]) ++
    Operation.recorded 12 (.growPriceRange 500 700) ++
    Operation.recorded 27 (.valuationOracle (.single 79)) ++
    Operation.recorded 21 (.protocolFee .input 30 (.single 82)) ++ Operation.recorded 10 .solve

/-- A pool of stored balances, moved to the valuation of an oracle, with a fee
for a third party. -/
def valuedPool : Program where
  id := .single 80
  bytes := valuedBytes.toArray
  records := #[⟨0, .dynamicBalances [(.single 65, 1000000), (.single 66, 2000000)]⟩,
    ⟨82, .growPriceRange 500 700⟩, ⟨100, .valuationOracle (.single 79)⟩,
    ⟨134, .protocolFee .input 30 (.single 82)⟩, ⟨170, .solve⟩]

/-- An oracle values the lower asset at three fifths. -/
def valuations : Observations :=
  { Observations.atTime 100 with
    oracles := Table.empty.insert (.single 79) ⟨600000000000000000, 100⟩ }

theorem directions_priced_alike_by_valued_pool :
    Program.decode .full (.single 80) valuedBytes = .ok valuedPool ∧
    quote valuedPool (Query.simulated .input (.single 65) (.single 66) 1000)
        valuations.environment 16 .empty =
      .ok ⟨⟨1167150, 1750725, 1000, 1494⟩, [⟨.single 82, .single 65, 3⟩], 5⟩ ∧
    ∃ image, Program.decode .full (.single 80) image =
        .ok (valuedPool.mirrored (Equiv.swap (.single 65) (.single 66)) image.toArray) ∧
      quote (valuedPool.mirrored (Equiv.swap (.single 65) (.single 66)) image.toArray)
          ((Query.simulated .input (.single 65) (.single 66) 1000).renamed
            (Equiv.swap (.single 65) (.single 66)))
          (valuations.mirrored (Equiv.swap (.single 65) (.single 66))).environment 16
          (Order.Store.empty.renamed (Equiv.swap (.single 65) (.single 66))) =
        .ok ⟨⟨1167150, 1750725, 1000, 1494⟩, [⟨.single 82, .single 66, 3⟩], 5⟩ := by
  have hdecode : Program.decode .full (.single 80) valuedBytes = .ok valuedPool := by cbv
  have hplain : ∀ r ∈ valuedPool.records, r.opcode ≠ .extruction := by decide
  have hne : (.single 65 : AssetId) ≠ .single 66 := by decide
  have hquote : quote valuedPool (Query.simulated .input (.single 65) (.single 66) 1000)
      valuations.environment 16 .empty =
        .ok ⟨⟨1167150, 1750725, 1000, 1494⟩, [⟨.single 82, .single 65, 3⟩], 5⟩ := by
    rfl
  rcases directions_priced_alike hdecode hplain hne with ⟨image, -, himage, halike⟩
  have hmirrored := (halike (Query.simulated .input (.single 65) (.single 66) 1000)
    valuations.environment .absent .absent 16 .empty (Or.inl ⟨rfl, rfl⟩)).1
  rw [hquote, ← Observations.environment_mirrored] at hmirrored
  exact ⟨hdecode, hquote, image, himage, hmirrored⟩

end Machine
end SwapPricing
