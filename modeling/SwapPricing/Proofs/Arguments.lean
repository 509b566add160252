import SwapPricing.Instruction.Encoding
import SwapPricing.Proofs.Rounding

/-!
# Arguments of records

The layout of the arguments of an opcode is given twice, as a writer and as a
reader.  The two agree: an instruction is read from argument bytes exactly if they
are what is written for it, and if its arguments are in range.
-/

namespace SwapPricing

open Arithmetic (wad bps)

/-!
# Readers

What a reader reads is spelled by the bytes it takes, and what is spelled by bytes
is read from them.
-/

namespace Reader

variable {α β : Type} {p : Reader α} {f : α → Reader β} {pre given middle tail : List UInt8}
  {spelling : α → List UInt8} {P : α → Prop} {word : β → List UInt8} {Q : β → Prop}

/-- Behind the bytes `pre`, whatever `p` reads satisfies `P` and is spelled by `pre`
together with the bytes that `p` takes. -/
def Spells (pre : List UInt8) (p : Reader α) (spelling : α → List UInt8) (P : α → Prop) : Prop :=
  ∀ c a c', p c = .ok (a, c') → P a ∧ pre ++ c.rest = spelling a ++ c'.rest

namespace Spells

theorem ret {b : β} (hword : word b = pre) (hb : Q b) : Spells pre (pure b) word Q := by
  intro c a c' heq
  injection heq with heq
  injection heq with heq hcursor
  subst heq hcursor
  exact ⟨hb, by rw [hword]⟩

theorem bind (hp : Spells [] p spelling P)
    (hf : ∀ a, P a → Spells (pre ++ spelling a) (f a) word Q) : Spells pre (p >>= f) word Q := by
  intro c b c' h
  have hbind : (p c >>= fun read => f read.1 read.2) = .ok (b, c') := h
  rcases bind_eq_ok_iff.mp hbind with ⟨⟨a, middle⟩, hread, hrest⟩
  rcases hp c a middle hread with ⟨ha, htaken⟩
  rcases hf a ha middle b c' hrest with ⟨hb, hspelled⟩
  refine ⟨hb, ?_⟩
  rw [← hspelled, List.append_assoc, ← htaken, List.nil_append]

/-- What follows a check may rely on it. -/
theorem check {g : Unit → Reader β} {b : Prop} [Decidable b] {fault : ArgumentFault}
    (hg : b → Spells pre (g ()) word Q) : Spells pre (require b fault >>= g) word Q := by
  have hrequire : Spells [] (require b fault) (fun _ => []) fun _ => b := by
    intro c a c' h
    unfold require at h
    split at h
    · rename_i hb
      injection h with h
      injection h with _ h
      exact ⟨hb, by rw [h]⟩
    · cases h
  refine bind hrequire fun _ hb => ?_
  rw [List.append_nil]
  exact hg hb

end Spells

/-- From the bytes `given`, `p` reads `a` and leaves the bytes `tail`. -/
def Yields (given : List UInt8) (p : Reader α) (a : α) (tail : List UInt8) : Prop :=
  ∀ c : Cursor, c.rest = given → p c = .ok (a, { c with rest := tail })

namespace Yields

theorem ret (b : β) (tail : List UInt8) : Yields tail (pure b) b tail := by
  rintro c rfl
  rfl

theorem bind {a : α} {b : β} (hp : Yields given p a middle) (hf : Yields middle (f a) b tail) :
    Yields given (p >>= f) b tail := by
  intro c hc
  show (p c >>= fun read => f read.1 read.2) = _
  rw [hp c hc, ok_bind]
  exact hf { c with rest := middle } rfl

theorem check {g : Unit → Reader β} {a : β} {b : Prop} [Decidable b] {fault : ArgumentFault}
    (hb : b) (hg : Yields given (g ()) a tail) : Yields given (require b fault >>= g) a tail := by
  have hrequire : Yields given (require b fault) () given := by
    rintro c rfl
    exact if_pos hb
  exact hrequire.bind hg

theorem of_eq {other : List UInt8} {a : α} (h : given = other) (hp : Yields other p a tail) :
    Yields given p a tail := by
  rw [h]
  exact hp

end Yields

/-- From the bytes `given`, `p` reads nothing but `a`, and then leaves the bytes `tail`. -/
def Admits (given : List UInt8) (p : Reader α) (a : α) (tail : List UInt8) : Prop :=
  ∀ c : Cursor, c.rest = given → ∀ read, p c = .ok read → read = (a, { c with rest := tail })

theorem Yields.admits {a : α} (hp : Yields given p a tail) : Admits given p a tail := by
  intro c hc read hread
  rw [hp c hc] at hread
  exact (Except.ok.inj hread).symm

namespace Admits

theorem ret (b : β) (tail : List UInt8) : Admits tail (pure b) b tail :=
  (Yields.ret b tail).admits

theorem bind {a : α} {b : β} (hp : Admits given p a middle) (hf : Admits middle (f a) b tail) :
    Admits given (p >>= f) b tail := by
  intro c hc read hread
  have hbind : (p c >>= fun first => f first.1 first.2) = .ok read := hread
  rcases bind_eq_ok_iff.mp hbind with ⟨first, hfirst, hrest⟩
  cases hp c hc first hfirst
  exact hf { c with rest := middle } rfl read hrest

theorem check {g : Unit → Reader β} {a : β} {b : Prop} [Decidable b] {fault : ArgumentFault}
    (hg : Admits given (g ()) a tail) : Admits given (require b fault >>= g) a tail := by
  have hrequire : Admits given (require b fault) () given := by
    rintro c rfl read hread
    unfold require at hread
    split at hread
    · exact (Except.ok.inj hread).symm
    · cases hread
  exact hrequire.bind hg

end Admits

/-!
# Fields
-/

theorem bytes_eq_ok_iff {n : Nat} {c c' : Cursor} {taken : List UInt8} :
    bytes n c = .ok (taken, c') ↔
      taken.length = n ∧ c.rest = taken ++ c'.rest ∧ c' = { c with rest := c'.rest } := by
  unfold bytes
  simp only
  constructor
  · intro h
    split at h
    · rename_i hlength
      injection h with h
      injection h with htaken hcursor
      subst htaken hcursor
      exact ⟨hlength, (List.take_append_drop n c.rest).symm, rfl⟩
    · cases h
  · rintro ⟨hlength, hrest, hcursor⟩
    have htake : c.rest.take n = taken := by
      rw [hrest, ← hlength]
      exact List.take_left
    have hdrop : c.rest.drop n = c'.rest := by
      rw [hrest, ← hlength]
      exact List.drop_left
    rw [if_pos (htake ▸ hlength), htake, hdrop, ← hcursor]

theorem spells_bytes (n : Nat) :
    Spells [] (bytes n) id fun taken => taken.length = n := by
  intro c taken c' h
  rcases bytes_eq_ok_iff.mp h with ⟨hlength, hrest, -⟩
  exact ⟨hlength, hrest⟩

theorem yields_bytes (taken tail : List UInt8) :
    Yields (taken ++ tail) (bytes taken.length) taken tail := by
  intro c hc
  exact bytes_eq_ok_iff.mpr ⟨rfl, hc, rfl⟩

section Words

variable {ω : Type} (width : Nat) {ofNat : Nat → ω} {toNat : ω → Nat}

theorem spells_word (h : ∀ n, n < LittleEndian.limit width → toNat (ofNat n) = n) :
    Spells [] (do return ofNat (LittleEndian.value (← bytes width)))
      (fun w => LittleEndian.bytes width (toNat w)) fun _ => True := by
  refine (spells_bytes width).bind fun taken hlength => .ret ?_ trivial
  have hfit := LittleEndian.value_lt taken
  rw [hlength] at hfit
  rw [h _ hfit]
  have hbytes := LittleEndian.bytes_value taken
  rw [hlength] at hbytes
  exact hbytes

theorem yields_word (w : ω) (h : ofNat (toNat w) = w) (hfit : toNat w < LittleEndian.limit width)
    (tail : List UInt8) :
    Yields (LittleEndian.bytes width (toNat w) ++ tail)
      (do return ofNat (LittleEndian.value (← bytes width))) w tail := by
  have htaken := yields_bytes (LittleEndian.bytes width (toNat w)) tail
  rw [LittleEndian.length_bytes] at htaken
  refine htaken.bind ?_
  rw [LittleEndian.value_bytes hfit, h]
  exact .ret w tail

end Words

theorem spells_uint16 :
    Spells [] uint16 (fun w => LittleEndian.bytes 2 w.toNat) fun _ => True :=
  spells_word 2 fun _ h => UInt16.toNat_ofNat_of_lt' h

theorem spells_uint32 :
    Spells [] uint32 (fun w => LittleEndian.bytes 4 w.toNat) fun _ => True :=
  spells_word 4 fun _ h => UInt32.toNat_ofNat_of_lt' h

theorem spells_uint64 :
    Spells [] uint64 (fun w => LittleEndian.bytes 8 w.toNat) fun _ => True :=
  spells_word 8 fun _ h => UInt64.toNat_ofNat_of_lt' h

theorem yields_uint16 (w : UInt16) (tail : List UInt8) :
    Yields (LittleEndian.bytes 2 w.toNat ++ tail) uint16 w tail :=
  yields_word 2 w UInt16.ofNat_toNat w.toNat_lt tail

theorem yields_uint32 (w : UInt32) (tail : List UInt8) :
    Yields (LittleEndian.bytes 4 w.toNat ++ tail) uint32 w tail :=
  yields_word 4 w UInt32.ofNat_toNat w.toNat_lt tail

theorem yields_uint64 (w : UInt64) (tail : List UInt8) :
    Yields (LittleEndian.bytes 8 w.toNat ++ tail) uint64 w tail :=
  yields_word 8 w UInt64.ofNat_toNat w.toNat_lt tail

theorem spells_identifier {kind : IdentifierKind} :
    Spells [] (identifier : Reader (Identifier kind)) Identifier.bytes fun _ => True := by
  intro c id c' h
  unfold identifier at h
  simp only at h
  split at h
  · injection h with h
    injection h with hid hcursor
    subst hid hcursor
    exact ⟨trivial, (List.take_append_drop identifierSize c.rest).symm⟩
  · cases h

theorem yields_identifier {kind : IdentifierKind} (id : Identifier kind) (tail : List UInt8) :
    Yields (id.bytes ++ tail) identifier id tail := by
  intro c hc
  have htake : c.rest.take identifierSize = id.bytes := by
    rw [hc, ← id.length_bytes]
    exact List.take_left
  have hdrop : c.rest.drop identifierSize = tail := by
    rw [hc, ← id.length_bytes]
    exact List.drop_left
  unfold identifier
  simp only [htake, hdrop, id.length_bytes, dif_pos]

theorem spells_rest : Spells [] rest id fun _ => True := by
  intro c given c' h
  injection h with h
  injection h with hgiven hcursor
  subst hgiven hcursor
  exact ⟨trivial, (List.append_nil _).symm⟩

theorem yields_rest (given : List UInt8) : Yields given rest given [] := by
  rintro c rfl
  rfl

/-!
# Entries
-/

theorem length_entryBytes (entries : Entries) :
    (Operation.entryBytes entries).length = entries.length * entrySize := by
  induction entries with
  | nil => rfl
  | cons entry more ih =>
      rcases entry with ⟨asset, amount⟩
      show ((asset.bytes ++ LittleEndian.bytes 8 amount.toNat) ++
        Operation.entryBytes more).length = _
      rw [List.length_append, ih, List.length_append, asset.length_bytes,
        LittleEndian.length_bytes, List.length_cons, Nat.succ_mul, Nat.add_comm]
      rfl

theorem spells_entriesOf (n : Nat) :
    Spells [] (entriesOf n) Operation.entryBytes fun _ => True := by
  induction n with
  | zero => exact .ret rfl trivial
  | succ n ih =>
      refine spells_identifier.bind fun asset _ => spells_uint64.bind fun amount _ =>
        ih.bind fun more _ => .ret ?_ trivial
      rfl

theorem yields_entriesOf (entries : Entries) (tail : List UInt8) :
    Yields (Operation.entryBytes entries ++ tail) (entriesOf entries.length) entries tail := by
  induction entries with
  | nil => exact .ret [] tail
  | cons entry more ih =>
      rcases entry with ⟨asset, amount⟩
      have hbytes : Operation.entryBytes ((asset, amount) :: more) ++ tail =
          asset.bytes ++ (LittleEndian.bytes 8 amount.toNat ++
            (Operation.entryBytes more ++ tail)) := by
        rw [← List.append_assoc, ← List.append_assoc]
        rfl
      exact .of_eq hbytes ((yields_identifier asset _).bind
        ((yields_uint64 amount _).bind (ih.bind (.ret _ tail))))

theorem spells_entries : Spells [] entries Operation.entryBytes fun _ => True := by
  intro c given c' h
  unfold entries at h
  simp only at h
  split at h
  · exact spells_entriesOf _ c given c' h
  · cases h

theorem yields_entries (given : Entries) :
    Yields (Operation.entryBytes given) entries given [] := by
  intro c hc
  have hlength : c.remaining = given.length * entrySize := by
    unfold Cursor.remaining
    rw [hc, length_entryBytes]
  have hwhole : c.remaining / entrySize = given.length := by
    rw [hlength]
    exact Nat.mul_div_cancel _ (by decide)
  have hmod : c.remaining % entrySize = 0 := by
    rw [hlength]
    exact Nat.mul_mod_left _ _
  unfold entries
  simp only [hwhole, hmod, if_true]
  exact yields_entriesOf given [] c (hc.trans (List.append_nil _).symm)

end Reader

/-!
# Arguments
-/

namespace Operation

open Reader

-- The equations of `arguments` are derived here, and not by each proof that is the first
-- to need them.
attribute [local simp] arguments

/-- The arguments are in the range that decoding checks. -/
def InRange : Instruction → Prop
  | takerShare _ least => least.toNat ≤ wad
  | decay period => period ≠ 0
  | auction _ a => a.duration ≠ 0 ∧ a.decay.toNat ≤ wad
  | twap s => s.duration ≠ 0 ∧ s.balanceOut ≠ 0 ∧ s.decay.toNat ≤ wad ∧ wad ≤ s.priceBump.toNat
  | flatFee _ rate => rate.toNat < bps
  | progressiveFee _ p => p.base.toNat < bps ∧ p.cap.toNat < bps
  | protocolFee _ rate _ => rate.toNat < bps
  | minRateAdjust b => b.lower ≠ 0 ∧ b.higher ≠ 0
  | minRateRequire b => b.lower ≠ 0 ∧ b.higher ≠ 0
  | baseFeeAdjust g => g.cap.toNat < bps
  | valuationStatic valuation => valuation ≠ 0 ∧ valuation.toNat < wad
  | valuationBounded _ _ maxDelta => maxDelta.toNat < bps
  | _ => True

section Spelling

open Reader.Spells

theorem spells_readRate :
    Spells [] readRate (fun rate => LittleEndian.bytes 2 rate.toNat) fun rate =>
      rate.toNat < bps :=
  bind spells_uint16 fun _ _ => check fun hrate => ret rfl hrate

theorem spells_readAuction (leg : Leg) :
    Spells [] readAuction (fun a => arguments (.auction leg a)) fun a =>
      InRange (.auction leg a) :=
  bind spells_uint64 fun _ _ => bind spells_uint32 fun _ _ => bind spells_uint64 fun _ _ =>
    check fun hduration => check fun hdecay => ret rfl ⟨hduration, hdecay⟩

theorem spells_readSale :
    Spells [] readSale (fun s => arguments (.twap s)) fun s => InRange (.twap s) := by
  refine bind spells_uint64 fun start _ => ?_
  refine bind spells_uint32 fun duration _ => ?_
  refine bind spells_uint64 fun balanceIn _ => ?_
  refine bind spells_uint64 fun balanceOut _ => ?_
  refine bind spells_uint64 fun decay _ => ?_
  refine bind spells_uint32 fun illiquidityPeriod _ => ?_
  refine bind spells_uint64 fun priceBump _ => ?_
  refine bind spells_uint64 fun minTradeOut _ => ?_
  refine check fun hduration => check fun hsold => check fun hdecay => check fun hbump => ?_
  exact ret rfl ⟨hduration, hsold, hdecay, hbump⟩

theorem spells_readProgressiveFee (leg : Leg) :
    Spells [] readProgressiveFee (fun p => arguments (.progressiveFee leg p)) fun p =>
      InRange (.progressiveFee leg p) :=
  bind spells_uint16 fun _ _ => bind spells_uint16 fun _ _ => bind spells_uint16 fun _ _ =>
    check fun hbase => check fun hcap => ret rfl ⟨hbase, hcap⟩

theorem spells_readRateBound :
    Spells [] readRateBound (fun b => arguments (.minRateAdjust b)) fun b =>
      InRange (.minRateAdjust b) :=
  bind spells_uint64 fun _ _ => bind spells_uint64 fun _ _ => check fun hbound => ret rfl hbound

theorem spells_readGasAdjust :
    Spells [] readGasAdjust (fun g => arguments (.baseFeeAdjust g)) fun g =>
      InRange (.baseFeeAdjust g) :=
  bind spells_uint64 fun _ _ => bind spells_uint64 fun _ _ => bind spells_uint64 fun _ _ =>
    bind spells_readRate fun _ hcap => ret rfl hcap

/-- What is read for an opcode is an instruction of it, in range and spelled by its
arguments. -/
theorem spells_read (op : Opcode) :
    Spells [] (read op) arguments fun i => i.opcode = op ∧ i.InRange := by
  cases op with
  | jump => exact bind spells_uint16 fun _ _ => ret rfl ⟨rfl, trivial⟩
  | jumpIfAsset leg =>
      exact bind spells_identifier fun _ _ => bind spells_uint16 fun _ _ => ret rfl ⟨rfl, trivial⟩
  | deadline => exact bind spells_uint64 fun _ _ => ret rfl ⟨rfl, trivial⟩
  | takerBalance =>
      exact bind spells_identifier fun _ _ => bind spells_uint64 fun _ _ => ret rfl ⟨rfl, trivial⟩
  | takerShare =>
      exact bind spells_identifier fun _ _ => bind spells_uint64 fun _ _ =>
        check fun hleast => ret rfl ⟨rfl, hleast⟩
  | salt => exact bind spells_rest fun _ _ => ret rfl ⟨rfl, trivial⟩
  | staticBalances => exact bind spells_entries fun _ _ => ret rfl ⟨rfl, trivial⟩
  | dynamicBalances => exact bind spells_entries fun _ _ => ret rfl ⟨rfl, trivial⟩
  | externalBalances => exact ret rfl ⟨rfl, trivial⟩
  | solve => exact ret rfl ⟨rfl, trivial⟩
  | growLiquidity => exact bind spells_entries fun _ _ => ret rfl ⟨rfl, trivial⟩
  | growPriceRange =>
      exact bind spells_uint64 fun _ _ => bind spells_uint64 fun _ _ => ret rfl ⟨rfl, trivial⟩
  | decay =>
      exact bind spells_uint32 fun _ _ => check fun hperiod => ret rfl ⟨rfl, hperiod⟩
  | auction leg => exact bind (spells_readAuction leg) fun _ hterms => ret rfl ⟨rfl, hterms⟩
  | twap => exact bind spells_readSale fun _ hterms => ret rfl ⟨rfl, hterms⟩
  | flatFee leg => exact bind spells_readRate fun _ hrate => ret rfl ⟨rfl, hrate⟩
  | progressiveFee leg =>
      exact bind (spells_readProgressiveFee leg) fun _ hterms => ret rfl ⟨rfl, hterms⟩
  | protocolFee leg =>
      exact bind spells_readRate fun _ hrate => bind spells_identifier fun _ _ =>
        ret rfl ⟨rfl, hrate⟩
  | minRateAdjust => exact bind spells_readRateBound fun _ hbound => ret rfl ⟨rfl, hbound⟩
  | minRateRequire => exact bind spells_readRateBound fun _ hbound => ret rfl ⟨rfl, hbound⟩
  | baseFeeAdjust => exact bind spells_readGasAdjust fun _ hterms => ret rfl ⟨rfl, hterms⟩
  | valuationStatic =>
      exact bind spells_uint64 fun _ _ => check fun hvaluation => ret rfl ⟨rfl, hvaluation⟩
  | valuationOracle => exact bind spells_identifier fun _ _ => ret rfl ⟨rfl, trivial⟩
  | valuationFresh =>
      exact bind spells_identifier fun _ _ => bind spells_uint32 fun _ _ => ret rfl ⟨rfl, trivial⟩
  | valuationBounded =>
      exact bind spells_identifier fun _ _ => bind spells_uint32 fun _ _ =>
        bind spells_readRate fun _ hdelta => ret rfl ⟨rfl, hdelta⟩
  | invalidateBit => exact bind spells_uint32 fun _ _ => ret rfl ⟨rfl, trivial⟩
  | fillCap leg => exact bind spells_uint64 fun _ _ => ret rfl ⟨rfl, trivial⟩
  | extruction =>
      exact bind spells_identifier fun _ _ => bind spells_rest fun _ _ => ret rfl ⟨rfl, trivial⟩

end Spelling

section Yielding

open Reader.Yields

variable (tail : List UInt8)

theorem yields_readRate {rate : UInt16} (hrate : rate.toNat < bps) :
    Yields (LittleEndian.bytes 2 rate.toNat ++ tail) readRate rate tail :=
  bind (yields_uint16 rate tail) (check hrate (ret rate tail))

theorem yields_readAuction {leg : Leg} {a : Auction} (ha : InRange (.auction leg a)) :
    Yields (arguments (.auction leg a) ++ tail) readAuction a tail := by
  simp only [arguments, List.append_assoc]
  exact bind (yields_uint64 _ _) (bind (yields_uint32 _ _) (bind (yields_uint64 _ _)
    (check ha.1 (check ha.2 (ret a tail)))))

theorem yields_readSale {s : Sale} (hs : InRange (.twap s)) :
    Yields (arguments (.twap s) ++ tail) readSale s tail := by
  rcases hs with ⟨hduration, hsold, hdecay, hbump⟩
  simp only [arguments, List.append_assoc]
  refine bind (yields_uint64 s.start _) ?_
  refine bind (yields_uint32 s.duration _) ?_
  refine bind (yields_uint64 s.balanceIn _) ?_
  refine bind (yields_uint64 s.balanceOut _) ?_
  refine bind (yields_uint64 s.decay _) ?_
  refine bind (yields_uint32 s.illiquidityPeriod _) ?_
  refine bind (yields_uint64 s.priceBump _) ?_
  refine bind (yields_uint64 s.minTradeOut _) ?_
  exact check hduration (check hsold (check hdecay (check hbump (ret s tail))))

theorem yields_readProgressiveFee {leg : Leg} {p : ProgressiveFee}
    (hp : InRange (.progressiveFee leg p)) :
    Yields (arguments (.progressiveFee leg p) ++ tail) readProgressiveFee p tail := by
  simp only [arguments, List.append_assoc]
  exact bind (yields_uint16 _ _) (bind (yields_uint16 _ _) (bind (yields_uint16 _ _)
    (check hp.1 (check hp.2 (ret p tail)))))

theorem yields_readRateBound {b : RateBound} (hb : InRange (.minRateAdjust b)) :
    Yields (arguments (.minRateAdjust b) ++ tail) readRateBound b tail := by
  simp only [arguments, List.append_assoc]
  exact bind (yields_uint64 _ _) (bind (yields_uint64 _ _) (check hb (ret b tail)))

theorem yields_readGasAdjust {g : GasAdjust} (hg : InRange (.baseFeeAdjust g)) :
    Yields (arguments (.baseFeeAdjust g) ++ tail) readGasAdjust g tail := by
  simp only [arguments, List.append_assoc]
  exact bind (yields_uint64 _ _) (bind (yields_uint64 _ _) (bind (yields_uint64 _ _)
    (bind (yields_readRate _ hg) (ret g tail))))

/-- An instruction in range is read from its arguments. -/
theorem yields_read {i : Instruction} (hi : i.InRange) :
    Yields i.arguments (read i.opcode) i [] := by
  rw [← List.append_nil i.arguments]
  cases i with
  | jump destination => exact bind (yields_uint16 _ _) (ret _ _)
  | jumpIfAsset leg asset destination =>
      simp only [arguments, List.append_assoc]
      exact bind (yields_identifier _ _) (bind (yields_uint16 _ _) (ret _ _))
  | deadline last => exact bind (yields_uint64 _ _) (ret _ _)
  | takerBalance asset least =>
      simp only [arguments, List.append_assoc]
      exact bind (yields_identifier _ _) (bind (yields_uint64 _ _) (ret _ _))
  | takerShare asset least =>
      simp only [arguments, List.append_assoc]
      exact bind (yields_identifier _ _) (bind (yields_uint64 _ _) (check hi (ret _ _)))
  | salt given => exact of_eq (List.append_nil _) (bind (yields_rest given) (ret _ _))
  | staticBalances balances =>
      exact of_eq (List.append_nil _) (bind (yields_entries balances) (ret _ _))
  | dynamicBalances balances =>
      exact of_eq (List.append_nil _) (bind (yields_entries balances) (ret _ _))
  | externalBalances => exact ret _ _
  | solve => exact ret _ _
  | growLiquidity deltas =>
      exact of_eq (List.append_nil _) (bind (yields_entries deltas) (ret _ _))
  | growPriceRange lower higher =>
      simp only [arguments, List.append_assoc]
      exact bind (yields_uint64 _ _) (bind (yields_uint64 _ _) (ret _ _))
  | decay period => exact bind (yields_uint32 _ _) (check hi (ret _ _))
  | auction leg terms => exact bind (yields_readAuction _ hi) (ret _ _)
  | twap terms => exact bind (yields_readSale _ hi) (ret _ _)
  | flatFee leg rate => exact bind (yields_readRate _ hi) (ret _ _)
  | progressiveFee leg terms => exact bind (yields_readProgressiveFee _ hi) (ret _ _)
  | protocolFee leg rate recipient =>
      simp only [arguments, List.append_assoc]
      exact bind (yields_readRate _ hi) (bind (yields_identifier _ _) (ret _ _))
  | minRateAdjust bound => exact bind (yields_readRateBound _ hi) (ret _ _)
  | minRateRequire bound => exact bind (yields_readRateBound _ hi) (ret _ _)
  | baseFeeAdjust terms => exact bind (yields_readGasAdjust _ hi) (ret _ _)
  | valuationStatic valuation => exact bind (yields_uint64 _ _) (check hi (ret _ _))
  | valuationOracle oracle => exact bind (yields_identifier _ _) (ret _ _)
  | valuationFresh oracle maxAge =>
      simp only [arguments, List.append_assoc]
      exact bind (yields_identifier _ _) (bind (yields_uint32 _ _) (ret _ _))
  | valuationBounded oracle maxAge maxDelta =>
      simp only [arguments, List.append_assoc]
      exact bind (yields_identifier _ _) (bind (yields_uint32 _ _)
        (bind (yields_readRate _ hi) (ret _ _)))
  | invalidateBit bit => exact bind (yields_uint32 _ _) (ret _ _)
  | fillCap leg cap => exact bind (yields_uint64 _ _) (ret _ _)
  | extruction logic input =>
      exact of_eq (List.append_nil _)
        (bind (yields_identifier _ _) (bind (yields_rest input) (ret _ _)))

end Yielding

/-- A record holds an instruction exactly where its bytes are the arguments of that
instruction, which are in range. -/
theorem decode_eq_ok_iff {op : Opcode} {offset : Nat} {given : List UInt8} {i : Instruction} :
    decode op offset given = .ok i ↔ i.opcode = op ∧ i.InRange ∧ i.arguments = given := by
  unfold decode
  simp only [bind_eq_ok_iff, pure_eq_ok_iff]
  constructor
  · rintro ⟨⟨j, cursor⟩, hread, ⟨u, last⟩, hfinish, rfl⟩
    rcases spells_read op _ _ _ hread with ⟨⟨hop, hrange⟩, hspelled⟩
    unfold Reader.finish at hfinish
    split at hfinish
    · rename_i hrest
      rw [hrest, List.append_nil] at hspelled
      exact ⟨hop, hrange, hspelled.symm⟩
    · cases hfinish
  · rintro ⟨rfl, hrange, rfl⟩
    exact ⟨_, yields_read hrange (Cursor.atStart i.opcode offset i.arguments) rfl, _,
      if_pos rfl, rfl⟩

/-!
# Bytes tell instructions apart
-/

section Admitting

open Reader.Admits

theorem admits_readRate (rate : UInt16) (tail : List UInt8) :
    Admits (LittleEndian.bytes 2 rate.toNat ++ tail) readRate rate tail :=
  bind (yields_uint16 rate tail).admits (check (ret rate tail))

theorem admits_readAuction {leg : Leg} (a : Auction) :
    Admits (arguments (.auction leg a)) readAuction a [] := by
  rw [← List.append_nil (arguments _)]
  simp only [arguments, List.append_assoc]
  exact bind (yields_uint64 _ _).admits (bind (yields_uint32 _ _).admits
    (bind (yields_uint64 _ _).admits (check (check (ret a [])))))

theorem admits_readSale (s : Sale) : Admits (arguments (.twap s)) readSale s [] := by
  rw [← List.append_nil (arguments _)]
  simp only [arguments, List.append_assoc]
  refine bind (yields_uint64 s.start _).admits ?_
  refine bind (yields_uint32 s.duration _).admits ?_
  refine bind (yields_uint64 s.balanceIn _).admits ?_
  refine bind (yields_uint64 s.balanceOut _).admits ?_
  refine bind (yields_uint64 s.decay _).admits ?_
  refine bind (yields_uint32 s.illiquidityPeriod _).admits ?_
  refine bind (yields_uint64 s.priceBump _).admits ?_
  refine bind (yields_uint64 s.minTradeOut _).admits ?_
  exact check (check (check (check (ret s []))))

theorem admits_readProgressiveFee {leg : Leg} (p : ProgressiveFee) :
    Admits (arguments (.progressiveFee leg p)) readProgressiveFee p [] := by
  rw [← List.append_nil (arguments _)]
  simp only [arguments, List.append_assoc]
  exact bind (yields_uint16 _ _).admits (bind (yields_uint16 _ _).admits
    (bind (yields_uint16 _ _).admits (check (check (ret p [])))))

theorem admits_readRateBound (b : RateBound) :
    Admits (arguments (.minRateAdjust b)) readRateBound b [] := by
  rw [← List.append_nil (arguments _)]
  simp only [arguments, List.append_assoc]
  exact bind (yields_uint64 _ _).admits (bind (yields_uint64 _ _).admits (check (ret b [])))

theorem admits_readGasAdjust (g : GasAdjust) :
    Admits (arguments (.baseFeeAdjust g)) readGasAdjust g [] := by
  rw [← List.append_nil (arguments _)]
  simp only [arguments, List.append_assoc]
  exact bind (yields_uint64 _ _).admits (bind (yields_uint64 _ _).admits
    (bind (yields_uint64 _ _).admits (bind (admits_readRate _ _) (ret g []))))

/-- From the arguments of an instruction no other one can be read, in range or not. -/
theorem admits_read (i : Instruction) : Admits i.arguments (read i.opcode) i [] := by
  cases i with
  | takerShare asset least =>
      rw [← List.append_nil (arguments _)]
      simp only [arguments, List.append_assoc]
      exact bind (yields_identifier _ _).admits (bind (yields_uint64 _ _).admits (check (ret _ _)))
  | decay period =>
      rw [← List.append_nil (arguments _)]
      exact bind (yields_uint32 _ _).admits (check (ret _ _))
  | auction leg terms => exact bind (admits_readAuction terms) (ret _ _)
  | twap terms => exact bind (admits_readSale terms) (ret _ _)
  | flatFee leg rate =>
      rw [← List.append_nil (arguments _)]
      exact bind (admits_readRate _ _) (ret _ _)
  | progressiveFee leg terms => exact bind (admits_readProgressiveFee terms) (ret _ _)
  | protocolFee leg rate recipient =>
      rw [← List.append_nil (arguments _)]
      simp only [arguments, List.append_assoc]
      exact bind (admits_readRate _ _) (bind (yields_identifier _ _).admits (ret _ _))
  | minRateAdjust bound => exact bind (admits_readRateBound bound) (ret _ _)
  | minRateRequire bound => exact bind (admits_readRateBound bound) (ret _ _)
  | baseFeeAdjust terms => exact bind (admits_readGasAdjust terms) (ret _ _)
  | valuationStatic valuation =>
      rw [← List.append_nil (arguments _)]
      exact bind (yields_uint64 _ _).admits (check (ret _ _))
  | valuationBounded oracle maxAge maxDelta =>
      rw [← List.append_nil (arguments _)]
      simp only [arguments, List.append_assoc]
      exact bind (yields_identifier _ _).admits (bind (yields_uint32 _ _).admits
        (bind (admits_readRate _ _) (ret _ _)))
  | _ =>
      apply Yields.admits
      exact yields_read trivial

end Admitting

/-- An instruction that has the opcode and the arguments of one in range is that one. -/
theorem eq_of_arguments_eq {i j : Instruction} (hop : i.opcode = j.opcode)
    (harguments : i.arguments = j.arguments) (hj : j.InRange) : i = j := by
  have hread := yields_read hj (Cursor.atStart j.opcode 0 j.arguments) rfl
  rw [← hop, ← harguments] at hread
  have hsame := admits_read i _ rfl _ hread
  exact (congrArg Prod.fst hsame).symm

end Operation
end SwapPricing
