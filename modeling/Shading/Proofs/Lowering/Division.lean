import Shading.Proofs.Lowering.Arithmetic
import Shading.Proofs.Discipline.Storage
import Shading.Proofs.Machine.Words

/-!
# Integer division on the machine

The processor divides `edx:eax` and leaves its results there, so the code of
a division saves both registers, brings the operands where they are needed
and puts the registers back (`Lower.divisionCode`). Operands and result may
be in either register themselves, which the order of the steps allows for:
the divisor is saved before `eax` is loaded, and a result in a register goes
through memory until both are back.

What is saved and put back are four bytes of each register. A 32-bit load
clears the upper half of its register, and so a division that leaves all
else as it was leaves no address in `rax` or `rdx`: their lower halves are as
before, and their upper halves are zero (`Machine.Divided`).
-/

namespace Shading

/-! ## The quotient -/

namespace Machine

theorem intOfWord_bounds (w : Word) : -(2 ^ 31) ≤ Binary32.intOfWord w ∧ Binary32.intOfWord w < 2 ^ 31 := by
  have small := w.toNat_lt
  unfold Binary32.intOfWord
  generalize w.toNat = n at small ⊢
  rw [Int.bmod_def]
  split <;> omega

/-- The sign extension of a word is the same number. -/
theorem signedValue_extended (w : Word) :
    signedValue 64 ((if Binary32.isNegative w then (0xFFFFFFFF : Word) else 0).toNat * 2 ^ 32 + w.toNat) =
      Binary32.intOfWord w := by
  have small := w.toNat_lt
  have ones : (0xFFFFFFFF : Word).toNat = 0xFFFFFFFF := rfl
  unfold signedValue Binary32.intOfWord Binary32.isNegative
  by_cases negative : w.toNat / 2 ^ 31 = 1
  · rw [if_pos (beq_iff_eq.2 negative), ones, Int.bmod_def, Int.bmod_def]
    generalize w.toNat = n at small negative ⊢
    split <;> split <;> omega
  · rw [if_neg (beq_iff_eq.not.2 negative), UInt32.toNat_zero, Int.bmod_def, Int.bmod_def]
    generalize w.toNat = n at small negative ⊢
    split <;> split <;> omega

/-- A quotient fits, but for that of the least number by minus one. -/
theorem tdiv_bounds {a b : Int} (low : -(2 ^ 31) ≤ a) (high : a < 2 ^ 31) (nonzero : b ≠ 0)
    (fits : ¬ (a = -(2 ^ 31) ∧ b = -1)) : -(2 ^ 31) ≤ a.tdiv b ∧ a.tdiv b < 2 ^ 31 := by
  by_cases unit : b.natAbs = 1
  · rcases Int.natAbs_eq b with same | same <;> rw [unit] at same <;> subst same
    · rw [Int.natCast_one, Int.tdiv_one]
      exact ⟨low, high⟩
    · rw [Int.natCast_one, Int.tdiv_neg, Int.tdiv_one]
      omega
  · have half : (a.tdiv b).natAbs ≤ a.natAbs / 2 := by
      rw [Int.natAbs_tdiv]
      exact Nat.div_le_div_left (by omega) (by decide)
    omega

/-- **The quotient of a sign-extended word.** -/
theorem divide?_extended {a b : Word} (nonzero : b ≠ 0)
    (fits : ¬ (Binary32.intOfWord a = -(2 ^ 31) ∧ Binary32.intOfWord b = -1)) :
    divide? (if Binary32.isNegative a then 0xFFFFFFFF else 0) a b =
      some (Binary32.wordOfInt ((Binary32.intOfWord a).tdiv (Binary32.intOfWord b)),
        Binary32.wordOfInt ((Binary32.intOfWord a).tmod (Binary32.intOfWord b))) := by
  have divisor : Binary32.intOfWord b ≠ 0 := by
    have small := b.toNat_lt
    have positive : b.toNat ≠ 0 := fun zero => nonzero (UInt32.toNat_inj.1 zero)
    unfold Binary32.intOfWord
    generalize b.toNat = n at small positive ⊢
    rw [Int.bmod_def]
    split <;> omega
  obtain ⟨low, high⟩ := intOfWord_bounds a
  simp only [divide?, signedValue_extended, if_neg divisor, if_pos (tdiv_bounds low high divisor fits)]

end Machine

/-! ## The code -/

namespace Lower

/-- A store of a general register. -/
def storeEntry (x : Location) (id : Nat) : CodeEntry := .instruction ⟨.movStore, id, x.operand, []⟩ ""

/-- A load of a general register. -/
def loadEntry (id : Nat) (x : Location) : CodeEntry := .instruction ⟨.movLoad, id, x.operand, []⟩ ""

/-- Where the divisor is read. -/
def divisorPlace (slot : Nat) (rhs : Location) : Location :=
  if rhs.isRegister then .globalMemory (slot + 8) else rhs

/-- Saving a divisor that is in a register. -/
def saveDivisor (slot : Nat) : Location → List CodeEntry
  | .register id => [storeEntry (.globalMemory (slot + 8)) id]
  | _ => []

/-- Loading the dividend. -/
def loadDividend (lhs : Location) : List CodeEntry := if lhs = .register 0 then [] else [loadEntry 0 lhs]

/-- Storing the quotient, and putting the registers back. -/
def storeQuotient (slot : Nat) : Location → List CodeEntry
  | .register id =>
    [storeEntry (.globalMemory (slot + 8)) 0, loadEntry 0 (.globalMemory slot),
      loadEntry 2 (.globalMemory (slot + 4)), loadEntry id (.globalMemory (slot + 8))]
  | out => [storeEntry out 0, loadEntry 0 (.globalMemory slot), loadEntry 2 (.globalMemory (slot + 4))]

theorem saveDivisor_memory {rhs : Location} (memory : rhs.isRegister = false) (slot : Nat) :
    saveDivisor slot rhs = [] := by
  cases rhs <;> first | rfl | cases memory

theorem storeQuotient_memory {out : Location} (memory : out.isRegister = false) (slot : Nat) :
    storeQuotient slot out =
      [storeEntry out 0, loadEntry 0 (.globalMemory slot), loadEntry 2 (.globalMemory (slot + 4))] := by
  cases out <;> first | rfl | cases memory

/-- **The code of an integer division** whose scratch words start at an
offset. -/
def divisionCode (slot : Nat) (out lhs rhs : Location) : List CodeEntry :=
  [storeEntry (.globalMemory slot) 0, storeEntry (.globalMemory (slot + 4)) 2] ++ saveDivisor slot rhs ++
    loadDividend lhs ++ [.cdq, .instruction ⟨.idiv, 0, (divisorPlace slot rhs).operand, []⟩ ""] ++
    storeQuotient slot out

end Lower

open Lower

namespace Machine

variable {m m' : Machine} (rsqrt : Word → Word) {L slot : Nat} {x out lhs rhs : Location} {X : Nat → Prop}

/-- **A load**, as straight code. -/
theorem straight_load (ground : m.Grounded L) (integer : x.IsInteger) (reaches : m.Reaches L x) (id : Nat) :
    Straight rsqrt X m [loadEntry id x] (m.setGeneral32 id (m.word L x)) :=
  .single "" (perform_load ground integer reaches id) fun _ _ => rfl

/-- **A store in memory**, as straight code. -/
theorem straight_store (ground : m.Grounded L) (integer : x.IsInteger) (reaches : m.Reaches L x) {first : Nat}
    (h : x.byte? L = some first) (within : ∀ k, x.Takes L k → X k) (id : Nat) :
    Straight rsqrt X m [storeEntry x id] (m.setWordAt first (m.general32 id)) := by
  refine .single "" (perform_store ground integer reaches h id) fun k out => ?_
  have leaves : m.Leaves (m.setWordAt first (m.general32 id)) (fun _ => False) X :=
    leaves_setWordAt m (fun k low high => within k ⟨first, h, low, high⟩) _
  exact leaves.bytes k out

/-- **Where a division can run**: its operands and its result are places for
integers, and apart from its scratch words. -/
structure DivisionSite (m : Machine) (L slot : Nat) (out lhs rhs : Location) : Prop where
  ground : m.Grounded L
  scratch : slot + 12 ≤ m.block.size
  integer : out.IsInteger ∧ lhs.IsInteger ∧ rhs.IsInteger
  reaches : m.Reaches L out ∧ m.Reaches L lhs ∧ m.Reaches L rhs
  apart : ∀ x ∈ [out, lhs, rhs], ∀ k, x.Takes L k → k < slot ∨ slot + 12 ≤ k

/-- The bytes that a division writes. -/
def DivisionBytes (L slot : Nat) (out : Location) (k : Nat) : Prop := out.Takes L k ∨ slot ≤ k ∧ k < slot + 12

/-- **What a division comes to.** The result has the quotient. All else stays,
but for the upper halves of `rax` and `rdx`, which are cleared. -/
structure Divided (m m' : Machine) (L slot : Nat) (out lhs rhs : Location) : Prop where
  quotient : m'.word L out =
    Binary32.wordOfInt ((Binary32.intOfWord (m.word L lhs)).tdiv (Binary32.intOfWord (m.word L rhs)))
  leaves : m.Leaves m' (fun id => id = 0 ∨ id = 2 ∨ out = .register id) (DivisionBytes L slot out)
  saved : ∀ id, id = 0 ∨ id = 2 → out ≠ .register id → m'.general64 id = (m.general32 id).toUInt64

/-- What was in `rax` or `rdx` is still there just if its upper half was
zero. -/
theorem Divided.kept_iff (h : m.Divided m' L slot out lhs rhs) {id : Nat} (saved : id = 0 ∨ id = 2)
    (other : out ≠ .register id) : m'.general64 id = m.general64 id ↔ (m.general64 id).toNat < 2 ^ 32 := by
  rw [h.saved id saved other, general32, ← UInt64.toNat_inj, UInt32.toNat_toUInt64, UInt64.toNat_toUInt32]
  exact ⟨fun same => same ▸ Nat.mod_lt _ (by decide), Nat.mod_eq_of_lt⟩

/-! ## The steps of a division -/

/-- A store in the scratch words. -/
theorem straight_scratch (ground : m.Grounded L) (scratch : slot + 12 ≤ m.block.size)
    (within : ∀ k, slot ≤ k → k < slot + 12 → X k) {offset : Nat} (low : slot ≤ offset) (high : offset + 4 ≤ slot + 12)
    (id : Nat) : Straight rsqrt X m [storeEntry (.globalMemory offset) id]
      (m.setWordAt offset (m.general32 id)) := by
  have here : (Location.globalMemory offset).byte? L = some offset := rfl
  have reaches : m.Reaches L (.globalMemory offset) := by
    rintro first ⟨⟩
    omega
  refine straight_store rsqrt (x := .globalMemory offset) ground trivial reaches here ?_ id
  rintro k ⟨first, ⟨⟩, above, below⟩
  exact within k (by omega) (by omega)

/-- A load from the scratch words. -/
theorem straight_restore (ground : m.Grounded L) (scratch : slot + 12 ≤ m.block.size) {offset : Nat}
    (high : offset + 4 ≤ slot + 12) (id : Nat) :
    Straight rsqrt X m [loadEntry id (.globalMemory offset)] (m.setGeneral32 id (m.wordAt offset)) := by
  have reaches : m.Reaches L (.globalMemory offset) := by
    rintro first ⟨⟩
    omega
  exact straight_load rsqrt (x := .globalMemory offset) ground trivial reaches id

/-- **The registers are saved.** -/
theorem straight_save (ground : m.Grounded L) (scratch : slot + 12 ≤ m.block.size)
    (within : ∀ k, slot ≤ k → k < slot + 12 → X k) :
    ∃ m', Straight rsqrt X m
        [storeEntry (.globalMemory slot) 0, storeEntry (.globalMemory (slot + 4)) 2] m' ∧
      m.Leaves m' (fun _ => False) (fun k => slot ≤ k ∧ k < slot + 8) ∧
      m'.wordAt slot = m.general32 0 ∧ m'.wordAt (slot + 4) = m.general32 2 := by
  obtain ⟨m₁, saved⟩ : ∃ m₁, m₁ = m.setWordAt slot (m.general32 0) := ⟨_, rfl⟩
  have first : m.Leaves m₁ (fun _ => False) (fun k => slot ≤ k ∧ k < slot + 8) :=
    saved ▸ leaves_setWordAt m (fun k low high => ⟨low, by omega⟩) _
  have second : m₁.Leaves (m₁.setWordAt (slot + 4) (m₁.general32 2)) (fun _ => False)
      (fun k => slot + 4 ≤ k ∧ k < slot + 8) :=
    leaves_setWordAt m₁ (fun k low high => ⟨low, by omega⟩) _
  have run : Straight rsqrt X m [storeEntry (.globalMemory slot) 0] m₁ :=
    saved ▸ straight_scratch rsqrt ground scratch within (Nat.le_refl slot) (by omega) 0
  have run' : Straight rsqrt X m₁ [storeEntry (.globalMemory (slot + 4)) 2]
      (m₁.setWordAt (slot + 4) (m₁.general32 2)) :=
    straight_scratch rsqrt (first.grounded ground not_false) (first.size ▸ scratch) within (by omega) (by omega) 2
  have both := first.trans (second.mono (fun _ _ h => h) fun k inside => ⟨by omega, inside.2⟩)
  refine ⟨_, run.append run', both, ?_, ?_⟩
  · rw [second.wordAt fun k low high inside => by omega, saved, wordAt_setWordAt]
  · rw [wordAt_setWordAt, saved, general32_setWordAt]

/-- **The divisor is in memory** where it is read. -/
theorem straight_saveDivisor (ground : m.Grounded L) (scratch : slot + 12 ≤ m.block.size)
    (within : ∀ k, slot ≤ k → k < slot + 12 → X k) (integer : rhs.IsInteger) :
    ∃ m', Straight rsqrt X m (saveDivisor slot rhs) m' ∧
      m.Leaves m' (fun _ => False) (fun k => slot + 8 ≤ k ∧ k < slot + 12) ∧
      m'.word L (divisorPlace slot rhs) = m.word L rhs := by
  rcases integer.cases L with ⟨id, -, rfl⟩ | ⟨memory, first, here⟩
  · refine ⟨m.setWordAt (slot + 8) (m.general32 id), ?_, ?_, wordAt_setWordAt _ _ _⟩
    · exact straight_scratch rsqrt ground scratch within (by omega) (by omega) id
    · exact leaves_setWordAt m (fun k low high => ⟨low, by omega⟩) _
  · rw [saveDivisor_memory memory, divisorPlace, memory]
    exact ⟨m, .nil m, .refl m _ _, rfl⟩

/-- **The dividend is in `eax`.** -/
theorem straight_loadDividend (ground : m.Grounded L) (integer : lhs.IsInteger) (reaches : m.Reaches L lhs) :
    ∃ m', Straight rsqrt X m (loadDividend lhs) m' ∧ m.Leaves m' (· = 0) (fun _ => False) ∧
      m'.general32 0 = m.word L lhs := by
  rw [loadDividend]
  split
  · next same =>
    subst same
    exact ⟨m, .nil m, .refl m _ _, rfl⟩
  · refine ⟨_, straight_load rsqrt ground integer reaches 0, ?_, (general32_setGeneral32 m 0 0 _).trans (if_pos rfl)⟩
    exact leaves_setGeneral32 m (show (· = 0) (0 % 8) from rfl) _

/-- The machine divides, if there is a quotient. -/
theorem perform_idiv (ground : m.Grounded L) (integer : x.IsInteger) (reaches : m.Reaches L x)
    {q r : Word} (quotient : divide? (m.general32 2) (m.general32 0) (m.word L x) = some (q, r)) :
    m.perform rsqrt ⟨.idiv, 0, x.operand, []⟩ =
      .ok (((m.setGeneral32 0 q).setGeneral32 2 r).setFlags .ofDivision) :=
  execute_idiv_of_quotient (read_word ground integer reaches (i := ⟨.idiv, 0, x.operand, []⟩) rfl) quotient

theorem leaves_extendSign (m : Machine) : m.Leaves m.extendSign (· = 2) X := by
  unfold extendSign
  exact leaves_setGeneral32 m (show (· = 2) (2 % 8) from rfl) _

/-- `edx` has the sign of `eax`. -/
theorem general32_extendSign (m : Machine) :
    m.extendSign.general32 2 = if Binary32.isNegative (m.general32 0) then 0xFFFFFFFF else 0 := by
  rw [extendSign, general32_setGeneral32, if_pos rfl]

/-- **The division itself**, by an integer in memory. -/
theorem straight_divide (ground : m.Grounded L) (integer : x.IsInteger) (reaches : m.Reaches L x)
    (memory : x.isRegister = false) {q r : Word}
    (quotient : divide? (if Binary32.isNegative (m.general32 0) then 0xFFFFFFFF else 0) (m.general32 0)
      (m.word L x) = some (q, r)) :
    ∃ m', Straight rsqrt X m [.cdq, .instruction ⟨.idiv, 0, x.operand, []⟩ ""] m' ∧
      m.Leaves m' (fun id => id = 0 ∨ id = 2) (fun _ => False) ∧ m'.general32 0 = q := by
  have extended : m.Leaves m.extendSign (· = 2) fun _ => False := leaves_extendSign m
  have divisor : m.extendSign.word L x = m.word L x := by
    refine extended.word integer ?_ fun _ _ h => h
    rintro id rfl
    cases memory
  have low : m.extendSign.general32 0 = m.general32 0 :=
    congrArg UInt64.toUInt32 (extended.general 0 (by decide) (by decide))
  rw [← general32_extendSign, ← low, ← divisor] at quotient
  have divided := perform_idiv rsqrt (extended.grounded ground (by decide)) integer
    (extended.reaches reaches) quotient
  refine ⟨_, .cdq (.single "" divided fun _ _ => rfl), ?_, ?_⟩
  · have wide : m.Leaves m.extendSign (fun id => id = 0 ∨ id = 2) fun _ => False :=
      extended.mono (fun _ _ => .inr) fun _ h => h
    exact ((wide.trans (leaves_setGeneral32 _ (.inl rfl) _)).trans (leaves_setGeneral32 _ (.inr rfl) _)).setFlags _
  · change ((m.extendSign.setGeneral32 0 q).setGeneral32 2 r).general32 0 = q
    rw [general32_setGeneral32, if_neg (by decide), general32_setGeneral32, if_pos rfl]

/-- The registers are put back, four bytes each. -/
theorem straight_putBack (ground : m.Grounded L) (scratch : slot + 12 ≤ m.block.size) :
    Straight rsqrt X m [loadEntry 0 (.globalMemory slot), loadEntry 2 (.globalMemory (slot + 4))]
      ((m.setGeneral32 0 (m.wordAt slot)).setGeneral32 2 (m.wordAt (slot + 4))) := by
  have first : Straight rsqrt X m [loadEntry 0 (.globalMemory slot)] (m.setGeneral32 0 (m.wordAt slot)) :=
    straight_restore rsqrt ground scratch (by omega) 0
  have ground' : (m.setGeneral32 0 (m.wordAt slot)).Grounded L :=
    (leaves_setGeneral32 (G := (· = 0)) (X := X) m rfl _).grounded ground (by decide)
  have second : Straight rsqrt X (m.setGeneral32 0 (m.wordAt slot)) [loadEntry 2 (.globalMemory (slot + 4))]
      ((m.setGeneral32 0 (m.wordAt slot)).setGeneral32 2 (m.wordAt (slot + 4))) :=
    straight_restore rsqrt (m := m.setGeneral32 0 (m.wordAt slot)) ground' scratch (by omega) 2
  exact first.append second

theorem leaves_putBack (m : Machine) (a d : Word) :
    m.Leaves ((m.setGeneral32 0 a).setGeneral32 2 d) (fun id => id = 0 ∨ id = 2) X :=
  (leaves_setGeneral32 m (.inl rfl) a).trans (leaves_setGeneral32 _ (.inr rfl) d)

/-- The quotient goes to memory, and the registers are put back. -/
theorem straight_storePutBack (ground : m.Grounded L) (scratch : slot + 12 ≤ m.block.size)
    (integer : x.IsInteger) (reaches : m.Reaches L x) {first : Nat} (here : x.byte? L = some first)
    (within : ∀ k, x.Takes L k → X k) (apart : ∀ k, x.Takes L k → k < slot ∨ slot + 8 ≤ k) :
    ∃ m', Straight rsqrt X m
        [storeEntry x 0, loadEntry 0 (.globalMemory slot), loadEntry 2 (.globalMemory (slot + 4))] m' ∧
      m.Leaves m' (fun id => id = 0 ∨ id = 2) (x.Takes L) ∧ m'.wordAt first = m.general32 0 ∧
      m'.general64 0 = (m.wordAt slot).toUInt64 ∧ m'.general64 2 = (m.wordAt (slot + 4)).toUInt64 := by
  obtain ⟨m₁, stored⟩ : ∃ m₁, m₁ = m.setWordAt first (m.general32 0) := ⟨_, rfl⟩
  have left : m.Leaves m₁ (fun _ => False) (x.Takes L) :=
    stored ▸ leaves_setWordAt m (fun k low high => ⟨first, here, low, high⟩) _
  have store : Straight rsqrt X m [storeEntry x 0] m₁ :=
    stored ▸ straight_store rsqrt ground integer reaches here within 0
  have saved (k : Nat) (low : slot ≤ k) (high : k < slot + 8) : ¬ x.Takes L k := fun taken => by
    have := apart k taken
    omega
  have a : m₁.wordAt slot = m.wordAt slot := left.wordAt fun k low high => saved k low (by omega)
  have d : m₁.wordAt (slot + 4) = m.wordAt (slot + 4) :=
    left.wordAt fun k low high => saved k (by omega) (by omega)
  have back := straight_putBack rsqrt (X := X) (left.grounded ground not_false) (left.size ▸ scratch)
  refine ⟨_, store.append back, ?_, ?_, ?_, ?_⟩
  · exact (left.mono (fun _ _ => False.elim) fun _ h => h).trans (leaves_putBack m₁ _ _)
  · rw [wordAt_setGeneral32, wordAt_setGeneral32, stored, wordAt_setWordAt]
  · rw [general64_setGeneral32, if_neg (by decide), general64_setGeneral32, if_pos rfl, a]
  · rw [general64_setGeneral32, if_pos rfl, d]

/-- **The quotient is stored**, and the registers are put back. -/
theorem straight_storeQuotient (ground : m.Grounded L) (scratch : slot + 12 ≤ m.block.size)
    (integer : out.IsInteger) (reaches : m.Reaches L out)
    (apart : ∀ k, out.Takes L k → k < slot ∨ slot + 12 ≤ k) :
    ∃ m', Straight rsqrt (DivisionBytes L slot out) m (storeQuotient slot out) m' ∧
      m.Leaves m' (fun id => id = 0 ∨ id = 2 ∨ out = .register id) (DivisionBytes L slot out) ∧
      m'.word L out = m.general32 0 ∧
      (out ≠ .register 0 → m'.general64 0 = (m.wordAt slot).toUInt64) ∧
      (out ≠ .register 2 → m'.general64 2 = (m.wordAt (slot + 4)).toUInt64) := by
  -- A result in a register goes through the slot of the quotient, since the two
  -- registers of the division are put back before it is loaded.
  rcases integer.cases L with ⟨id, small, rfl⟩ | ⟨memory, first, here⟩
  · have there : (Location.globalMemory (slot + 8)).byte? L = some (slot + 8) := rfl
    have taken {k : Nat} (h : (Location.globalMemory (slot + 8)).Takes L k) : slot + 8 ≤ k ∧ k < slot + 12 := by
      obtain ⟨first, ⟨⟩, low, high⟩ := h
      exact ⟨low, high⟩
    have within (k : Nat) (h : (Location.globalMemory (slot + 8)).Takes L k) :
        DivisionBytes L slot (.register id) k := by
      have := taken h
      exact .inr ⟨by omega, by omega⟩
    have inside : m.Reaches L (.globalMemory (slot + 8)) := by
      rintro first ⟨⟩
      omega
    obtain ⟨m₁, run, leaves, quotient, a, d⟩ := straight_storePutBack rsqrt ground scratch
      (x := .globalMemory (slot + 8)) trivial inside there within fun k h => .inr (taken h).1
    have load : Straight rsqrt (DivisionBytes L slot (.register id)) m₁ [loadEntry id (.globalMemory (slot + 8))]
        (m₁.setGeneral32 id (m₁.wordAt (slot + 8))) :=
      straight_restore rsqrt (leaves.grounded ground (by decide)) (leaves.size ▸ scratch) (by omega) id
    have other (j : Nat) (h : Location.register id ≠ .register j) (low : j < 8) : j % 8 ≠ id % 8 := by
      rw [Nat.mod_eq_of_lt low, Nat.mod_eq_of_lt small]
      rintro rfl
      exact h rfl
    refine ⟨_, run.append load, ?_, ?_, ?_, ?_⟩
    · refine (leaves.mono (fun _ _ saved => saved.imp_right .inl) within).trans ?_
      exact leaves_setGeneral32 m₁ (.inr (.inr (congrArg Location.register (Nat.mod_eq_of_lt small).symm))) _
    · exact (general32_setGeneral32 m₁ id id _).trans ((if_pos rfl).trans quotient)
    · intro h
      rw [general64_setGeneral32, if_neg (other 0 h (by decide)), a]
    · intro h
      rw [general64_setGeneral32, if_neg (other 2 h (by decide)), d]
  · rw [storeQuotient_memory memory]
    obtain ⟨m₁, run, leaves, quotient, a, d⟩ := straight_storePutBack rsqrt
      (X := DivisionBytes L slot out) ground scratch integer reaches here (fun k => .inl) fun k h => by
        have := apart k h
        omega
    refine ⟨m₁, run, leaves.mono (fun _ _ saved => saved.imp_right .inl) fun _ => .inl, ?_, fun _ => a,
      fun _ => d⟩
    rw [word_of_byte? here, quotient]

/-! ## A whole division -/

theorem isRegister_divisorPlace (slot : Nat) (rhs : Location) : (divisorPlace slot rhs).isRegister = false := by
  rw [divisorPlace]
  split
  · rfl
  · next memory => exact Bool.eq_false_iff.2 memory

theorem isInteger_divisorPlace (slot : Nat) (integer : rhs.IsInteger) : (divisorPlace slot rhs).IsInteger := by
  rw [divisorPlace]
  split
  · trivial
  · exact integer

theorem reaches_divisorPlace (scratch : slot + 12 ≤ m.block.size) (reaches : m.Reaches L rhs) :
    m.Reaches L (divisorPlace slot rhs) := by
  rw [divisorPlace]
  split
  · rintro first ⟨⟩
    omega
  · exact reaches

/-- The code before the division: `edx:eax` is saved, the divisor is in
memory and the dividend in `eax`. -/
theorem straight_operands (site : m.DivisionSite L slot out lhs rhs) :
    ∃ m', Straight rsqrt (DivisionBytes L slot out) m
        ([storeEntry (.globalMemory slot) 0, storeEntry (.globalMemory (slot + 4)) 2] ++ saveDivisor slot rhs ++
          loadDividend lhs) m' ∧
      m.Leaves m' (· = 0) (fun k => slot ≤ k ∧ k < slot + 12) ∧
      m'.wordAt slot = m.general32 0 ∧ m'.wordAt (slot + 4) = m.general32 2 ∧
      m'.general32 0 = m.word L lhs ∧ m'.word L (divisorPlace slot rhs) = m.word L rhs := by
  obtain ⟨ground, scratch, ⟨-, integerL, integerR⟩, ⟨-, reachesL, -⟩, apart⟩ := site
  have within (k : Nat) (low : slot ≤ k) (high : k < slot + 12) : DivisionBytes L slot out k := .inr ⟨low, high⟩
  obtain ⟨m₁, run₁, left₁, a, d⟩ := straight_save rsqrt ground scratch within
  obtain ⟨m₂, run₂, left₂, divisor⟩ := straight_saveDivisor rsqrt (left₁.grounded ground not_false)
    (left₁.size ▸ scratch) within integerR
  have saved : m.Leaves m₂ (fun _ => False) fun k => slot ≤ k ∧ k < slot + 12 :=
    (left₁.mono (fun _ _ h => h) fun k inside => ⟨inside.1, by omega⟩).trans
      (left₂.mono (fun _ _ h => h) fun k inside => ⟨by omega, inside.2⟩)
  obtain ⟨m₃, run₃, left₃, dividend⟩ := straight_loadDividend rsqrt (X := DivisionBytes L slot out)
    (saved.grounded ground not_false) integerL (saved.reaches reachesL)
  have kept (x : Location) (hx : x ∈ [out, lhs, rhs]) (k : Nat) (taken : x.Takes L k) :
      ¬ (slot ≤ k ∧ k < slot + 12) := by
    have := apart x hx k taken
    omega
  have low (k : Nat) (below : k < slot + 8) : ¬ (slot + 8 ≤ k ∧ k < slot + 12) := by omega
  refine ⟨m₃, (run₁.append run₂).append run₃, ?_, ?_, ?_, ?_, ?_⟩
  · exact (saved.mono (fun _ _ => False.elim) fun _ h => h).trans (left₃.mono (fun _ _ h => h) fun _ => False.elim)
  · rw [left₃.wordAt fun _ _ _ => not_false, left₂.wordAt fun k _ _ => low k (by omega), a]
  · rw [left₃.wordAt fun _ _ _ => not_false, left₂.wordAt fun k _ _ => low k (by omega), d]
  · rw [dividend, saved.word integerL (fun _ _ => not_false) (kept lhs (by simp))]
  · have memory := isRegister_divisorPlace slot rhs
    rw [left₃.word (isInteger_divisorPlace slot integerR) ?_ fun _ _ => not_false, divisor,
      left₁.word integerR (fun _ _ => not_false)]
    · intro k taken inside
      exact kept rhs (by simp) k taken ⟨inside.1, by omega⟩
    · rintro id register -
      rw [register] at memory
      cases memory

/-- **The code of a division does one division**: if there is a quotient, the
result has it and all else is as `Divided` says. -/
theorem straight_division (site : m.DivisionSite L slot out lhs rhs) (nonzero : m.word L rhs ≠ 0)
    (fits : ¬ (Binary32.intOfWord (m.word L lhs) = -(2 ^ 31) ∧ Binary32.intOfWord (m.word L rhs) = -1)) :
    ∃ m', Straight rsqrt (DivisionBytes L slot out) m (divisionCode slot out lhs rhs) m' ∧
      m.Divided m' L slot out lhs rhs := by
  obtain ⟨m₁, run₁, left₁, a, d, dividend, divisor⟩ := straight_operands rsqrt site
  obtain ⟨ground, scratch, ⟨integerOut, -, integerR⟩, ⟨reachesOut, -, reachesR⟩, apart⟩ := site
  have ground₁ := left₁.grounded ground (by decide)
  have scratch₁ : slot + 12 ≤ m₁.block.size := left₁.size ▸ scratch
  have quotient := divide?_extended nonzero fits
  rw [← dividend, ← divisor] at quotient
  obtain ⟨m₂, run₂, left₂, result⟩ := straight_divide rsqrt (X := DivisionBytes L slot out) ground₁
    (isInteger_divisorPlace slot integerR) (reaches_divisorPlace scratch₁ (left₁.reaches reachesR))
    (isRegister_divisorPlace slot rhs) quotient
  obtain ⟨m₃, run₃, left₃, stored, a', d'⟩ := straight_storeQuotient rsqrt
    (left₂.grounded ground₁ (by decide)) (left₂.size ▸ scratch₁) integerOut
    (left₂.reaches (left₁.reaches reachesOut)) (apart out (by simp))
  refine ⟨m₃, (run₁.append run₂).append run₃, ?_, ?_, ?_⟩
  · rw [stored, result, dividend, divisor]
  · have first : m.Leaves m₁ (fun id => id = 0 ∨ id = 2 ∨ out = .register id) (DivisionBytes L slot out) :=
      left₁.mono (fun _ _ => .inl) fun _ => .inr
    have second : m₁.Leaves m₂ (fun id => id = 0 ∨ id = 2 ∨ out = .register id) (DivisionBytes L slot out) :=
      left₂.mono (fun _ _ h => h.imp_right .inl) fun _ => False.elim
    exact (first.trans second).trans left₃
  · rintro id (rfl | rfl) other
    · rw [a' other, left₂.wordAt fun _ _ _ => not_false, a]
    · rw [d' other, left₂.wordAt fun _ _ _ => not_false, d]

end Machine

/-! ## The lowering of a division -/

/-- An entry without its line in the listing. -/
def CodeEntry.bare : CodeEntry → CodeEntry
  | .instruction i _ => .instruction i ""
  | e => e

namespace CodeEntry

@[simp] theorem size_bare (e : CodeEntry) : e.bare.size = e.size := by cases e <;> rfl

@[simp] theorem linkedBytes_bare (e : CodeEntry) (start : Nat) : e.bare.linkedBytes start = e.linkedBytes start := by
  cases e <;> rfl

end CodeEntry

namespace Assembly

variable {es : List CodeEntry} {start : Nat}

@[simp] theorem sizeOf_bare (es : List CodeEntry) : sizeOf (es.map CodeEntry.bare) = sizeOf es := by
  induction es with
  | nil => rfl
  | cons e es ih => rw [List.map_cons, sizeOf_cons, sizeOf_cons, ih, CodeEntry.size_bare]

/-- Lines of a listing are no bytes. -/
@[simp] theorem linkedCode_bare (start : Nat) (es : List CodeEntry) :
    linkedCode start (es.map CodeEntry.bare) = linkedCode start es := by
  induction es generalizing start with
  | nil => rfl
  | cons e es ih => rw [List.map_cons, linkedCode, linkedCode, ih, CodeEntry.size_bare, CodeEntry.linkedBytes_bare]

@[simp] theorem reaching_bare : Reaching start (es.map CodeEntry.bare) ↔ Reaching start es := by
  induction es generalizing start with
  | nil => rfl
  | cons e es ih =>
    rw [List.map_cons, Reaching, Reaching, CodeEntry.size_bare, ih]
    refine and_congr_left fun _ => ⟨fun near i text target eq => ?_, fun near i text target eq => ?_⟩
    · exact near i "" target (eq ▸ rfl)
    · cases e with
      | instruction j line =>
        cases eq
        exact near i line target rfl
      | _ => cases eq

end Assembly

namespace Lower

variable {s : LoweringState} {x k : Lower Unit} {es es' : List CodeEntry} {l : Location}

/-- **An action that writes code**, the same from every state but for the
lines of the listing, and takes no scratch words of divisions. -/
def Writes (x : Lower Unit) (es : List CodeEntry) : Prop :=
  ∀ s, ∃ t code, x s = .ok (.unit, t) ∧ t.assembly.entries = s.assembly.entries ++ code ∧
    code.map CodeEntry.bare = es ∧ t.divisionSlots = s.divisionSlots

namespace Writes

theorem pure : Writes (Pure.pure .unit) [] := fun s => ⟨s, [], rfl, (List.append_nil _).symm, rfl, rfl⟩

theorem bind (h : Writes x es) (h' : Writes k es') : Writes (x >>= fun _ => k) (es ++ es') := by
  intro s
  obtain ⟨t, code, run, entries, bare, slots⟩ := h s
  obtain ⟨u, code', run', entries', bare', slots'⟩ := h' t
  refine ⟨u, code ++ code', bind_eq_ok.2 ⟨_, _, run, run'⟩, ?_, ?_, slots'.trans slots⟩
  · rw [entries', entries, List.append_assoc]
  · rw [List.map_append, bare, bare']

/-- Code behind an action that writes none. -/
theorem after {α : Type} {x : Lower α} {k : α → Lower Unit} {a : α} {t : LoweringState} (run : x s = .ok (a, t))
    (assembly : t.assembly = s.assembly) (h : Writes (k a) es) :
    ∃ u code, (x >>= k) s = .ok (.unit, u) ∧ u.assembly.entries = s.assembly.entries ++ code ∧
      code.map CodeEntry.bare = es ∧ u.divisionSlots = t.divisionSlots := by
  obtain ⟨u, code, run', entries, bare, slots⟩ := h t
  exact ⟨u, code, bind_eq_ok.2 ⟨_, _, run, run'⟩, assembly ▸ entries, bare, slots⟩

end Writes

theorem writes_emit (o : Opcode) {r : Location} {id : Nat} (field : registerField r = .ok id) (integer : l.IsInteger) :
    Writes (emit o r l) [.instruction ⟨o, id, l.operand, []⟩ ""] := by
  intro s
  obtain ⟨text, run⟩ := emit_eq (s := s) o field integer.operandOf []
  exact ⟨_, [_], run, rfl, rfl, rfl⟩

theorem writes_emitStore (o : Opcode) {r : Location} {id : Nat} (field : registerField r = .ok id)
    (integer : l.IsInteger) : Writes (emitStore o l r) [.instruction ⟨o, id, l.operand, []⟩ ""] := by
  intro s
  obtain ⟨text, run⟩ := emitStore_eq (s := s) o integer.operandOf field
  exact ⟨_, [_], run, rfl, rfl, rfl⟩

theorem writes_emitUnary (o : Opcode) (integer : l.IsInteger) :
    Writes (emitUnary o l) [.instruction ⟨o, 0, l.operand, []⟩ ""] := by
  intro s
  obtain ⟨text, run⟩ := emitUnary_eq (s := s) o integer.operandOf []
  exact ⟨_, [_], run, rfl, rfl, rfl⟩

theorem writes_cdq : Writes (modifyAssembly fun a => a.write .cdq) [.cdq] :=
  fun _ => ⟨_, [_], rfl, rfl, rfl, rfl⟩

theorem writes_loadDividend (integer : l.IsInteger) :
    Writes (transfer .dword (.register 0) l) (loadDividend l) := by
  unfold transfer loadDividend
  by_cases same : l = .register 0
  · rw [if_pos same.symm, if_pos same]
    exact .pure
  · rw [if_neg fun h => same h.symm, if_neg same, if_pos (show (Location.register 0).isRegister = true from rfl)]
    exact writes_emit .movLoad rfl integer

/-- The code that ends a division. -/
theorem writes_storeQuotient {out : Location} (integer : out.IsInteger) (slot : Nat) :
    Writes (if out.isRegister then do
        emitStore .movStore (.globalMemory (slot + 8)) (.register 0)
        emit .movLoad (.register 0) (.globalMemory slot)
        emit .movLoad (.register 2) (.globalMemory (slot + 4))
        emit .movLoad out (.globalMemory (slot + 8))
      else do
        emitStore .movStore out (.register 0)
        emit .movLoad (.register 0) (.globalMemory slot)
        emit .movLoad (.register 2) (.globalMemory (slot + 4))) (storeQuotient slot out) := by
  have scratch (offset : Nat) : (Location.globalMemory offset).IsInteger := trivial
  have back := (writes_emit .movLoad (r := .register 0) rfl (scratch slot)).bind
    (writes_emit .movLoad (r := .register 2) rfl (scratch (slot + 4)))
  rcases integer.cases 0 with ⟨id, -, rfl⟩ | ⟨memory, -⟩
  · rw [if_pos (show (Location.register id).isRegister = true from rfl)]
    refine (writes_emitStore .movStore (r := .register 0) rfl (scratch (slot + 8))).bind ?_
    refine (writes_emit .movLoad (r := .register 0) rfl (scratch slot)).bind ?_
    refine (writes_emit .movLoad (r := .register 2) rfl (scratch (slot + 4))).bind ?_
    exact writes_emit .movLoad rfl (scratch (slot + 8))
  · rw [if_neg (Bool.eq_false_iff.1 memory), storeQuotient_memory memory]
    exact (writes_emitStore .movStore (r := .register 0) rfl integer).bind back

/-- **The code of an integer division**, from a state in good order. -/
theorem integerDivision_code {out : Location} {lhs rhs : Value} (ok : s.Ok) (integerOut : out.IsInteger)
    (integerL : lhs.location.IsInteger) (integerR : rhs.location.IsInteger) :
    ∃ t slot code, integerDivision out lhs rhs s = .ok (.unit, t) ∧ t.divisionSlots = some (.at slot) ∧
      t.assembly.entries = s.assembly.entries ++ code ∧
      code.map CodeEntry.bare = divisionCode slot out lhs.location rhs.location := by
  obtain ⟨d, t, run, -, slots, slot, rfl⟩ := (divisionSlots_ends (.refl ok)).exists_ok
  have assembly := (divisionSlots_rests _ _ run).1
  have scratch (offset : Nat) : (Location.globalMemory offset).IsInteger := trivial
  have divide {l : Location} (integer : l.IsInteger) :=
    (writes_loadDividend integerL).bind
      (writes_cdq.bind ((writes_emitUnary .idiv integer).bind (writes_storeQuotient integerOut slot)))
  obtain ⟨u, code, run', entries, bare, slots'⟩ : ∃ u code, integerDivision out lhs rhs s = .ok (.unit, u) ∧
      u.assembly.entries = s.assembly.entries ++ code ∧
      code.map CodeEntry.bare = divisionCode slot out lhs.location rhs.location ∧
      u.divisionSlots = t.divisionSlots := by
    unfold integerDivision
    refine Writes.after run assembly ?_
    simp only [divisionCode, List.append_assoc, List.cons_append, List.nil_append]
    refine (writes_emitStore .movStore (r := .register 0) rfl (scratch slot)).bind ?_
    refine (writes_emitStore .movStore (r := .register 2) rfl (scratch (slot + 4))).bind ?_
    rcases integerR.cases 0 with ⟨id, -, register⟩ | ⟨memory, -⟩
    · rw [register]
      exact (writes_emitStore .movStore (r := .register id) rfl (scratch (slot + 8))).bind (divide (scratch (slot + 8)))
    · rw [saveDivisor_memory memory, divisorPlace, memory]
      exact divide integerR
  exact ⟨u, slot, code, run', slots'.trans slots, entries, bare⟩

/-! ## The run of a division -/

theorem readable_storeEntry {id : Nat} (small : id < 8) (integer : l.IsInteger) : (storeEntry l id).Readable := by
  simp [storeEntry, CodeEntry.Readable, Instruction.Encodable, Opcode.form, small, integer.encodable]

theorem readable_loadEntry {id : Nat} (small : id < 8) (integer : l.IsInteger) : (loadEntry id l).Readable := by
  simp [loadEntry, CodeEntry.Readable, Instruction.Encodable, Opcode.form, small, integer.encodable]

/-- The entries of a division can be read back. -/
theorem readable_divisionCode {out lhs rhs : Location} (integerOut : out.IsInteger) (integerL : lhs.IsInteger)
    (integerR : rhs.IsInteger) (slot : Nat) : ∀ e ∈ divisionCode slot out lhs rhs, e.Readable := by
  have scratch (offset : Nat) : (Location.globalMemory offset).IsInteger := trivial
  have store (offset : Nat) {id : Nat} (small : id < 8) : (storeEntry (.globalMemory offset) id).Readable :=
    readable_storeEntry small (scratch offset)
  have load (offset : Nat) {id : Nat} (small : id < 8) : (loadEntry id (.globalMemory offset)).Readable :=
    readable_loadEntry small (scratch offset)
  have save : ∀ e ∈ saveDivisor slot rhs, e.Readable := by
    rcases integerR.cases 0 with ⟨id, small, rfl⟩ | ⟨memory, -⟩
    · exact List.forall_mem_singleton.2 (store _ small)
    · rw [saveDivisor_memory memory]
      exact List.forall_mem_nil _
  have dividend : ∀ e ∈ loadDividend lhs, e.Readable := by
    rw [loadDividend]
    split
    · exact List.forall_mem_nil _
    · exact List.forall_mem_singleton.2 (readable_loadEntry (by decide) integerL)
  have divide : (CodeEntry.instruction ⟨.idiv, 0, (divisorPlace slot rhs).operand, []⟩ "").Readable := by
    have encodable := (Machine.isInteger_divisorPlace slot integerR).encodable
    simp [CodeEntry.Readable, Instruction.Encodable, Opcode.form, encodable]
  have quotient : ∀ e ∈ storeQuotient slot out, e.Readable := by
    rcases integerOut.cases 0 with ⟨id, small, rfl⟩ | ⟨memory, -⟩
    · simp only [storeQuotient, List.forall_mem_cons]
      exact ⟨store _ (by decide), load _ (by decide), load _ (by decide), load _ small, List.forall_mem_nil _⟩
    · simp only [storeQuotient_memory memory, List.forall_mem_cons]
      exact ⟨readable_storeEntry (by decide) integerOut, load _ (by decide), load _ (by decide),
        List.forall_mem_nil _⟩
  simp only [divisionCode, List.forall_mem_append, List.forall_mem_cons]
  exact ⟨⟨⟨⟨⟨store _ (by decide), store _ (by decide), List.forall_mem_nil _⟩, save⟩, dividend⟩, trivial, divide,
    List.forall_mem_nil _⟩, quotient⟩

/-- **A division that is lowered divides**, where its code stands in a block:
a run of as many steps as there are entries ends behind the code, in a
machine as `Machine.Divided` says. It leaves `rax` and `rdx` as they were just
if they held no more than four bytes. -/
theorem integerDivision_divides (out : Location) (lhs rhs : Value) (ok : s.Ok)
    (integer : out.IsInteger ∧ lhs.location.IsInteger ∧ rhs.location.IsInteger) :
    ∃ t slot code, integerDivision out lhs rhs s = .ok (.unit, t) ∧ t.divisionSlots = some (.at slot) ∧
      t.assembly.entries = s.assembly.entries ++ code ∧
      code.map CodeEntry.bare = divisionCode slot out lhs.location rhs.location ∧
      ∀ (rsqrt : Word → Word) (m : Machine) (L start : Nat),
        m.DivisionSite L slot out lhs.location rhs.location →
        m.block.Holds start (Assembly.linkedCode start code) → Assembly.Reaching start code →
        (∀ k, Machine.DivisionBytes L slot out k → k < start ∨ start + Assembly.sizeOf code ≤ k) →
        m.word L rhs.location ≠ 0 →
        ¬ (Binary32.intOfWord (m.word L lhs.location) = -(2 ^ 31) ∧
          Binary32.intOfWord (m.word L rhs.location) = -1) →
        ∃ m', (∀ steps, (m.standing start).run rsqrt (code.length + steps) =
            (m'.standing (start + Assembly.sizeOf code)).run rsqrt steps) ∧
          m.Divided m' L slot out lhs.location rhs.location ∧
          ∀ id, id = 0 ∨ id = 2 → out ≠ .register id →
            (m'.general64 id = m.general64 id ↔ (m.general64 id).toNat < 2 ^ 32) := by
  obtain ⟨integerOut, integerL, integerR⟩ := integer
  obtain ⟨t, slot, code, run, slots, entries, bare⟩ := integerDivision_code ok integerOut integerL integerR
  refine ⟨t, slot, code, run, slots, entries, bare, ?_⟩
  intro rsqrt m L start site holds reaching apart nonzero fits
  obtain ⟨m', straight, divided⟩ := Machine.straight_division rsqrt site nonzero fits
  rw [← Assembly.linkedCode_bare, bare] at holds
  rw [← Assembly.sizeOf_bare, bare] at apart ⊢
  rw [← Assembly.reaching_bare, bare] at reaching
  rw [show code.length = (divisionCode slot out lhs.location rhs.location).length by rw [← bare, List.length_map]]
  have readable := readable_divisionCode integerOut integerL integerR slot
  exact ⟨m', straight.run readable holds reaching apart, divided, fun _ saved other => divided.kept_iff saved other⟩

/-- A machine at the code of a division of seven by two, with an address
above four gigabytes in `rax`. -/
def dividingMachine : Machine where
  base := 4096
  block := (({ size := 4096 } : Block).setBytes 64 (Assembly.linkedCode 64
    (divisionCode 0 (.localMemory 0) (.localMemory 4) (.localMemory 8)))).setBytes 132 [7, 0, 0, 0, 2, 0, 0, 0]
  ip := 64
  registers := { general := #v[0x100000005, 0, 0, 0, 0, 0, 4096 + 128, 0] }

theorem size_dividingMachine : dividingMachine.block.size = 4096 :=
  (Block.size_setBytes _ _ _).trans (Block.size_setBytes _ _ _)

theorem site_dividingMachine :
    dividingMachine.DivisionSite 128 0 (.localMemory 0) (.localMemory 4) (.localMemory 8) := by
  have whole : dividingMachine.base + dividingMachine.block.size ≤ Machine.addressCount := by
    rw [size_dividingMachine]
    decide
  refine ⟨⟨rfl, whole⟩, by rw [size_dividingMachine]; decide, ?_, ?_, ?_⟩
  · exact ⟨show 0 < 2 ^ 31 by decide, show 4 < 2 ^ 31 by decide, show 8 < 2 ^ 31 by decide⟩
  · refine ⟨?_, ?_, ?_⟩ <;> rintro first ⟨⟩ <;> rw [size_dividingMachine] <;> decide
  · rintro x inside k ⟨first, here, low, high⟩
    simp only [List.mem_cons, List.not_mem_nil, or_false] at inside
    obtain rfl | rfl | rfl := inside <;> cases here <;> exact .inr (by omega)

theorem near_dividingMachine :
    Assembly.Near (divisionCode 0 (.localMemory 0) (.localMemory 4) (.localMemory 8)) := by
  intro i text target inside global
  simp only [divisionCode, saveDivisor, loadDividend, storeQuotient, storeEntry, loadEntry, reduceCtorEq, if_false,
    List.append_nil, List.cons_append, List.nil_append, List.mem_cons, List.not_mem_nil, or_false, false_or,
    CodeEntry.instruction.injEq] at inside
  obtain ⟨rfl, -⟩ | ⟨rfl, -⟩ | ⟨rfl, -⟩ | ⟨rfl, -⟩ | ⟨rfl, -⟩ | ⟨rfl, -⟩ | ⟨rfl, -⟩ := inside
  all_goals cases global <;> decide

/-- The quotient is three, and the upper half of the address is lost. -/
theorem integerDivision_clears_upper_half :
    ∃ (s t : LoweringState) (code : List CodeEntry) (m' : Machine),
      integerDivision (.localMemory 0) ⟨.localMemory 4, .int, none, none⟩ ⟨.localMemory 8, .int, none, none⟩ s =
        .ok (.unit, t) ∧
      t.assembly.entries = s.assembly.entries ++ code ∧
      dividingMachine.block.Holds 64 (Assembly.linkedCode 64 code) ∧
      (∀ steps, dividingMachine.run id (code.length + steps) =
        (m'.standing (64 + Assembly.sizeOf code)).run id steps) ∧
      m'.word 128 (.localMemory 0) = 3 ∧ dividingMachine.general64 0 = 0x100000005 ∧ m'.general64 0 = 5 := by
  obtain ⟨s, start⟩ : ∃ s : LoweringState, s =
    { stage := .vertex, placement := .memoryFirst, declarations := {}, assembly := { keepListing := false } } :=
      ⟨_, rfl⟩
  have ok : s.Ok := by
    rw [start]
    exact ⟨Layout.ok_empty, Assembly.sound_nil _, ConstantPool.agrees_empty, .nil, by rintro _ ⟨⟩, by rintro _ ⟨⟩⟩
  obtain ⟨t, slot, code, run, slots, entries, bare, divides⟩ := integerDivision_divides (.localMemory 0)
    ⟨.localMemory 4, .int, none, none⟩ ⟨.localMemory 8, .int, none, none⟩ ok site_dividingMachine.integer
  obtain rfl : slot = 0 := by
    have first : (integerDivision (.localMemory 0) ⟨.localMemory 4, .int, none, none⟩
        ⟨.localMemory 8, .int, none, none⟩ s).map (fun r => r.2.divisionSlots) = .ok (some (.at 0)) := by
      rw [start]
      rfl
    rw [run] at first
    cases slots.symm.trans (Except.ok.inj first)
    rfl
  -- The code is evaluated where it lies, which gives its size; what it does comes from
  -- the general theorem on divisions.
  have linked : dividingMachine.block.Holds 64 (Assembly.linkedCode 64 code) := by
    rw [← Assembly.linkedCode_bare, bare]
    exact ⟨by rw [size_dividingMachine]; decide, by decide +kernel⟩
  have reaching : Assembly.Reaching 64 code := by
    rw [← Assembly.reaching_bare, bare]
    exact Assembly.reaching_of_near near_dividingMachine (by decide)
  have size : Assembly.sizeOf code = 43 := by
    rw [← Assembly.sizeOf_bare, bare]
    rfl
  have lhs : dividingMachine.word 128 (.localMemory 4) = 7 := by decide +kernel
  have rhs : dividingMachine.word 128 (.localMemory 8) = 2 := by decide +kernel
  have stands : dividingMachine.standing 64 = dividingMachine := Machine.standing_ip dividingMachine
  obtain ⟨m', run', divided, -⟩ := divides id dividingMachine 128 64 site_dividingMachine linked reaching
    (fun k written => by
      rw [size]
      rcases written with ⟨first, here, low, high⟩ | inside
      · cases here
        omega
      · omega)
    (by rw [rhs]; decide) (by rw [lhs]; decide +kernel)
  rw [stands] at run'
  refine ⟨s, t, code, m', run, entries, linked, run', ?_, by decide +kernel, ?_⟩
  · rw [divided.quotient, lhs, rhs]
    decide +kernel
  · rw [divided.saved 0 (.inl rfl) (by rintro ⟨⟩)]
    decide +kernel

end Lower

end Shading
