import Shading.Proofs.Discipline.Program
import Shading.Proofs.Effects.Operands
import Shading.Proofs.Layout.Sessions

/-!
# The addresses of elements
-/

namespace Shading

open LoweringState

/-! ## Pointers -/

namespace Machine

variable {m m' : Machine} {rsqrt : Word → Word} {L : Nat}

/-- **The address of a place in memory**, modulo the number of addresses; the
local region starts at an offset of the block. -/
def pointer (m : Machine) (L : Nat) : Location → UInt64
  | .globalMemory o => .ofInt (m.base + o : Nat)
  | .localMemory o => .ofInt (m.base + (L + o) : Nat)
  | .indirectRegister id => m.general64 id
  | _ => 0

theorem toNat_ofInt (x : Int) : (UInt64.ofInt x).toNat = (x % (addressCount : Nat)).toNat := by
  have positive := Int.emod_nonneg x (show ((2 : Int) ^ 64) ≠ 0 by decide)
  have below := Int.emod_lt_of_pos x (show 0 < ((2 : Int) ^ 64) by decide)
  change (UInt64.ofNat (x % 2 ^ 64).toNat).toNat = (x % 2 ^ 64).toNat
  rw [UInt64.toNat_ofNat']
  exact Nat.mod_eq_of_lt (by omega)

/-- **The operand of an instruction** stands at the address of its place. -/
theorem Grounded.operandAddress?_pointer (ground : m.Grounded L) {l : Location} {i : Instruction Nat}
    (operand : Lower.operandOf l = .ok i.rm) (memory : l.isInMemory = true)
    (near : ∀ o, l = .localMemory o → o < 2 ^ 31) : m.operandAddress? i = some (m.pointer L l).toNat := by
  cases l with
  | globalMemory o =>
    rw [operandAddress?_globalAt (Except.ok.inj operand).symm, pointer, toNat_ofInt]
    rfl
  | localMemory o =>
    rw [operandAddress?_localAt (Except.ok.inj operand).symm, pointer, toNat_ofInt, ground.localBase,
      signedValue_small (near o rfl), ← Nat.add_assoc, Int.natCast_add (m.base + L)]
  | indirectRegister id => rw [operandAddress?_indirect (Except.ok.inj operand).symm, pointer]
  | _ => cases memory

/-- A place so many bytes further on. -/
theorem pointer_offsetBy {l : Location} (known : l.isInMemory = true) (direct : ∀ id, l ≠ .indirectRegister id)
    (n : Nat) : m.pointer L (l.offsetBy n) = m.pointer L l + .ofInt n := by
  cases l with
  | globalMemory o =>
    simp only [Location.offsetBy, pointer, ← UInt64.ofInt_add]
    congr 1
    omega
  | localMemory o =>
    simp only [Location.offsetBy, pointer, ← UInt64.ofInt_add]
    congr 1
    omega
  | indirectRegister id => exact absurd rfl (direct id)
  | _ => cases known

theorem signExtend_eq (w : Word) : signExtend w = .ofInt (Binary32.intOfWord w) := rfl

/-- The immediate bytes of a number. -/
theorem immediateWord_wordBytes (n : Nat) : immediateWord (wordBytes n) = UInt32.ofNat n := by
  have length : (wordBytes n).length = 4 := length_littleEndian 4 n
  have bytes : ofLittleEndian (wordBytes n) = n % 2 ^ 32 := ofLittleEndian_littleEndian 4 n
  rw [immediateWord, length, bytes, Binary32.wordOfInt]
  refine UInt32.toNat_inj.1 ?_
  rw [UInt32.toNat_ofNat', UInt32.toNat_ofNat', signedValue, Int.bmod_def]
  split <;> omega

/-- A small number is itself as a signed word. -/
theorem intOfWord_ofNat {n : Nat} (small : n < 2 ^ 31) : Binary32.intOfWord (UInt32.ofNat n) = n := by
  have word : (UInt32.ofNat n).toNat = n := by
    rw [UInt32.toNat_ofNat']
    omega
  change signedValue 32 (UInt32.ofNat n).toNat = n
  rw [word, signedValue_small small]

theorem wordOfInt_natCast (n : Nat) : Binary32.wordOfInt n = UInt32.ofNat n := by
  rw [Binary32.wordOfInt]
  refine UInt32.toNat_inj.1 ?_
  rw [UInt32.toNat_ofNat', UInt32.toNat_ofNat']
  omega

/-- An immediate number that is small is extended to itself. -/
theorem signExtend_wordBytes {n : Nat} (small : n < 2 ^ 31) : signExtend (immediateWord (wordBytes n)) = .ofInt n := by
  rw [immediateWord_wordBytes, signExtend_eq, intOfWord_ofNat small]

end Machine

/-! ## Code that loads general registers -/

namespace LoweringState

/-- **The code between two states loads general registers** and changes
nothing else, with free registers at hand. It is carried out by each machine
that suits the layout, and then something holds. -/
structure Loads (s₁ s : LoweringState) (F : Nat → Machine → Machine → Prop) : Prop where
  entries : ∃ es, s.assembly.entries = s₁.assembly.entries ++ es
  declarations : s.declarations = s₁.declarations
  nodup : s.layout.freeGeneral.Nodup
  pool : ∀ id ∈ s.layout.freeGeneral, id ∈ RegisterClass.general.pool
  simd : s.layout.freeSimd = RegisterClass.simd.pool
  run : ∀ rsqrt L m₀, s₁.Suits L m₀ → ∃ m, Machine.Track.run rsqrt (.running m₀) (s.codeSince s₁) = .running m ∧
    m₀.Leaves m (· ∈ RegisterClass.general.pool) (fun _ => False) ∧ F L m₀ m

/-- **What holds does not depend on the free registers.** -/
def Settles (s : LoweringState) (F : Nat → Machine → Machine → Prop) : Prop :=
  ∀ L m₀ m v, ∀ id ∈ s.layout.freeGeneral, F L m₀ m → F L m₀ (m.setGeneral64 id v)

/-- What an instruction that loads a general register comes to. -/
def Turns (s₁ : LoweringState) (F G : Nat → Machine → Machine → Prop) (i : Instruction Nat) : Prop :=
  ∀ rsqrt L m₀ m, s₁.Suits L m₀ → m.Grounded L → m₀.Leaves m (· ∈ RegisterClass.general.pool) (fun _ => False) →
    F L m₀ m → ∃ id v f, id ∈ RegisterClass.general.pool ∧
      m.perform rsqrt i = .ok ((m.setGeneral64 id v).setFlags f) ∧ G L m₀ ((m.setGeneral64 id v).setFlags f)

namespace Loads

variable {s₁ s t : LoweringState} {F G : Nat → Machine → Machine → Prop}

theorem mono (h : s₁.Loads s F) (sub : ∀ L m₀ m, F L m₀ m → G L m₀ m) : s₁.Loads s G := by
  refine ⟨h.entries, h.declarations, h.nodup, h.pool, h.simd, fun rsqrt L m₀ suits => ?_⟩
  obtain ⟨m, run, leaves, holds⟩ := h.run rsqrt L m₀ suits
  exact ⟨m, run, leaves, sub L m₀ m holds⟩

/-- A step without code. -/
theorem rest (h : s₁.Loads s F) (code : t.assembly = s.assembly) (declarations : t.declarations = s.declarations)
    (nodup : t.layout.freeGeneral.Nodup) (pool : ∀ id ∈ t.layout.freeGeneral, id ∈ RegisterClass.general.pool)
    (simd : t.layout.freeSimd = s.layout.freeSimd) : s₁.Loads t F where
  entries := by rw [code]; exact h.entries
  declarations := declarations.trans h.declarations
  nodup := nodup
  pool := pool
  simd := simd.trans h.simd
  run := by rw [codeSince, code]; exact h.run

/-- **An instruction loads a general register.** -/
theorem wrote (h : s₁.Loads s F) {i : Instruction Nat} (text : String)
    (turns : s₁.Turns F G i) : s₁.Loads (Lower.wrote s i text) G := by
  obtain ⟨es, code⟩ := h.entries
  have new : (Lower.wrote s i text).assembly.entries = s₁.assembly.entries ++ (es ++ [.instruction i text]) := by
    rw [← List.append_assoc, ← code]
    rfl
  refine ⟨⟨_, new⟩, h.declarations, h.nodup, h.pool, h.simd, fun rsqrt L m₀ suits => ?_⟩
  obtain ⟨m, run, leaves, holds⟩ := h.run rsqrt L m₀ suits
  have ground := leaves.grounded suits.grounded (by decide)
  obtain ⟨id, v, f, pool, done, after⟩ := turns rsqrt L m₀ m suits ground leaves holds
  have small := Regime.pool_lt pool
  refine ⟨_, ?_, leaves.trans ((Machine.leaves_setGeneral64 m ?_ v).setFlags f), after⟩
  · rw [codeSince_of_append code] at run
    rw [codeSince_of_append new, Machine.Track.run_append, run, Machine.Track.run_instruction, done]
  · rwa [Nat.mod_eq_of_lt small]

end Loads

end LoweringState

namespace Lower

variable {s₁ s t : LoweringState} {F G : Nat → Machine → Machine → Prop}

/-! ## Free registers -/

/-- **The first free register is leased**, if nothing to avoid occupies a free
one. -/
theorem acquire_loads (h : s₁.Loads s F) {avoid : List Location}
    (clear : ∀ l ∈ avoid, ∀ id ∈ s.layout.freeGeneral, l.registerOf? ≠ some (.general, id))
    (room : 0 < s.layout.freeGeneral.length) :
    Results (acquire .general avoid) s fun x t => ∃ id, x = ⟨.register id, none⟩ ∧
      s.layout.freeGeneral = id :: t.layout.freeGeneral ∧ s₁.Loads t F := by
  obtain ⟨id, ids, free⟩ := List.exists_cons_of_length_pos room
  have fits : Layout.conflicts avoid .general id = false := by
    rw [Layout.conflicts, List.any_eq_false]
    intro l hl
    have := clear l hl id (free ▸ List.mem_cons_self)
    simpa [Location.occupies] using this
  have leased : s.layout.lease .general avoid = .ok (⟨.register id, none⟩,
      { s.layout.setFree .general ids with leased := s.layout.leased ++ [.register id] }) := by
    simp [Layout.lease, Layout.free, free, fits, RegisterClass.location, Layout.setFree]
  unfold acquire
  refine .bindGet ?_
  rw [leased]
  refine .intro rfl ⟨id, rfl, free, h.rest rfl rfl ?_ ?_ rfl⟩
  · exact (List.nodup_cons.1 (free ▸ h.nodup)).2
  · exact fun j hj => h.pool j (free ▸ List.mem_cons_of_mem _ hj)

/-- **A register is free again.** -/
theorem release_loads (h : s₁.Loads s F) {id : Nat} (pool : id ∈ RegisterClass.general.pool)
    (new : id ∉ s.layout.freeGeneral) :
    Results (release ⟨.register id, none⟩) s fun _ t =>
      t.layout.freeGeneral.Perm (id :: s.layout.freeGeneral) ∧ s₁.Loads t F := by
  have same := Layout.perm_insertAscending new
  refine .intro rfl ⟨same, h.rest rfl rfl ?_ ?_ rfl⟩
  · exact same.nodup_iff.2 (List.nodup_cons.2 ⟨new, h.nodup⟩)
  · intro j hj
    rcases List.mem_cons.1 (same.mem_iff.1 hj) with rfl | hj
    · exact pool
    · exact h.pool j hj

/-- **An integer is placed** in the first free register. -/
theorem place_loads (h : s₁.Loads s F) (room : 0 < s.layout.freeGeneral.length) :
    Results (place .int) s fun out t => ∃ id, out = .register id ∧
      s.layout.freeGeneral = id :: t.layout.freeGeneral ∧ s₁.Loads t F := by
  obtain ⟨id, ids, free⟩ := List.exists_cons_of_length_pos room
  have placed : s.layout.place .int .local = .ok (.register id, s.layout.setFree .general ids) := by
    simp [Layout.place, Ty.size, RegisterClass.ofTy?, Layout.takeRegister?, Layout.free, free,
      RegisterClass.location]
  refine .intro (place_eq placed rfl) ⟨id, rfl, free, h.rest rfl rfl ?_ ?_ rfl⟩
  · exact (List.nodup_cons.1 (free ▸ h.nodup)).2
  · exact fun j hj => h.pool j (free ▸ List.mem_cons_of_mem _ hj)

/-! ## Emission -/

theorem emit_loads (h : s₁.Loads s F) (o : Opcode) {r l : Location} {id : Nat} {p : Operand Nat}
    (field : registerField r = .ok id) (operand : operandOf l = .ok p) (immediate : List UInt8)
    (turns : s₁.Turns F G ⟨o, id, p, immediate⟩) :
    Results (emit o r l immediate) s fun _ t => t.layout = s.layout ∧ s₁.Loads t G := by
  obtain ⟨text, run⟩ := emit_eq (s := s) o field operand immediate
  exact .intro run ⟨rfl, h.wrote text turns⟩

theorem emitUnary_loads (h : s₁.Loads s F) (o : Opcode) {l : Location} {p : Operand Nat}
    (operand : operandOf l = .ok p) (immediate : List UInt8) (turns : s₁.Turns F G ⟨o, 0, p, immediate⟩) :
    Results (emitUnary o l immediate) s fun _ t => t.layout = s.layout ∧ s₁.Loads t G := by
  obtain ⟨text, run⟩ := emitUnary_eq (s := s) o operand immediate
  exact .intro run ⟨rfl, h.wrote text turns⟩

/-! ## Indices -/

end Lower

/-- **An index** is an integer variable or literal. -/
inductive Expr.IsIndex : Expr → Prop
  | name (id : SymbolId) (p : Position) : IsIndex (.name id .int p)
  | literal (k : Int) (p : Position) : IsIndex (.literal (.int k) .int p)

/-- An index that names an element is a literal in range. -/
theorem Expr.IsIndex.literal_of_some {e : Expr} (index : e.IsIndex) {ty : Ty} {k : Nat}
    (named : Lower.literalIndex? ty e = some k) : ∃ p, e = .literal (.int k) .int p ∧ k < ty.elementCount := by
  cases index with
  | name id p => cases named
  | literal i p =>
    change (if 0 ≤ i ∧ i < ty.elementCount then some i.toNat else none) = some k at named
    split at named
    · next range =>
      cases named
      exact ⟨p, by rw [Int.toNat_of_nonneg range.1], by omega⟩
    · cases named

/-- So many bytes at a location are part of a variable. -/
def Location.Inside (l : Location) (n : Nat) (home : Holding) : Prop :=
  ∃ k, l = home.2.offsetBy k ∧ k + n ≤ home.1.size

namespace LoweringState

variable {s₁ s t : LoweringState} {F G : Nat → Machine → Machine → Prop} {L : Nat} {m m₀ : Machine}

/-- The place of a variable. -/
def placeOf (s : LoweringState) (id : SymbolId) : Location :=
  ((s.declarations.symbols.get? id).map Symbol.location).getD .none

/-- **The value of an index** on a machine: the literal, or what is at the
place of the variable. -/
def indexWord (s : LoweringState) (L : Nat) (m : Machine) : Expr → Word
  | .literal (.int k) _ _ => Binary32.wordOfInt k
  | .name id _ _ => m.word L (s.placeOf id)
  | _ => 0

/-- **The variables that a function sees are in memory**, and all registers
are free. -/
structure Resides (s : LoweringState) (d : Declarations) (f : Option FunctionId) : Prop where
  ok : s.Ok
  general : s.layout.freeGeneral = RegisterClass.general.pool
  simd : s.layout.freeSimd = RegisterClass.simd.pool
  houses : s.Houses d (d.Sees f)
  homes : ∀ id v, d.Sees f id → s.declarations.symbols.get? id = some v → s.Backs v.ty.size v.location

/-- Memory that has been handed out is in the block. -/
theorem Suits.reaches (suits : s.Suits L m) (ok : s.Ok) {l : Location} (backs : s.Backs 4 l) :
    l.IsInteger ∧ m.Reaches L l := by
  have top : s.layout.globalRegion.top ≤ s.layout.globalSize := ok.layout.globalTop
  obtain ⟨-, globals, locals, reach⟩ := suits
  cases l with
  | globalMemory o =>
    refine ⟨trivial, ?_⟩
    rintro _ ⟨⟩
    have : o + 4 ≤ s.layout.globalRegion.top := backs
    omega
  | localMemory o =>
    have : o + 4 ≤ s.layout.localSize := backs
    refine ⟨show o < 2 ^ 31 by omega, ?_⟩
    rintro _ ⟨⟩
    omega
  | _ => cases backs

end LoweringState

namespace Lower

variable {s₁ s t : LoweringState} {F G : Nat → Machine → Machine → Prop} {d : Declarations} {f : Option FunctionId}

/-- **A variable in memory** needs no code. -/
theorem variableValue_resides (resides : s₁.Resides d f) (declarations : s.declarations = s₁.declarations)
    {id : SymbolId} {ty : Ty} {p : Position} (typed : Expr.Typed d f (.name id ty p)) :
    Results (variableValue id) s fun v t => v = ⟨s₁.placeOf id, ty, none, none⟩ ∧ t = s ∧
      s₁.Backs ty.size (s₁.placeOf id) ∧ d.Sees f id := by
  cases typed with
  | name p found visible =>
    rename_i v
    obtain ⟨l, known⟩ := resides.houses.symbols id v found
    unfold variableValue
    refine .bindGet ?_
    rw [declarations, known]
    dsimp only
    split
    · rintro _ _ ⟨⟩
    · next ordinary =>
      rw [not_or] at ordinary
      have isVariable : v.kind = .variable := by
        have := ordinary.1
        revert this
        cases v.kind <;> simp
      have place : s₁.placeOf id = l := by rw [placeOf, known]; rfl
      have sees : d.Sees f id := ⟨v, found, isVariable, visible⟩
      exact .pure ⟨by rw [place], rfl, place ▸ resides.homes id _ sees known, sees⟩

/-- **An index is loaded**, if it is a literal. -/
theorem index_loads (resides : s₁.Resides d f) (h : s₁.Loads s F) (settles : s.Settles F) {e : Expr}
    (index : e.IsIndex) (typed : e.Typed d f) (room : 0 < s.layout.freeGeneral.length) :
    Results (expression false e) s fun v t => v.lease = none ∧
      s₁.Loads t (fun L m₀ m => F L m₀ m ∧ m.word L v.location = s₁.indexWord L m₀ e) ∧
      (s₁.Backs 4 v.location ∧ t.layout.freeGeneral = s.layout.freeGeneral ∨
        ∃ id, v.location = .register id ∧ s.layout.freeGeneral = id :: t.layout.freeGeneral) := by
  cases index with
  | name id p =>
    rw [expression_name]
    refine (variableValue_resides resides h.declarations typed).mono ?_
    rintro _ _ ⟨rfl, rfl, backs, -⟩
    refine ⟨rfl, ?_, .inl ⟨backs, rfl⟩⟩
    refine ⟨h.entries, h.declarations, h.nodup, h.pool, h.simd, fun rsqrt L m₀ suits => ?_⟩
    obtain ⟨m, run, leaves, holds⟩ := h.run rsqrt L m₀ suits
    obtain ⟨integer, -⟩ := suits.reaches resides.ok backs
    refine ⟨m, run, leaves, holds, leaves.word integer (fun j eq => ?_) fun _ _ h => h⟩
    have none := backs.registerOf?
    rw [show s₁.placeOf id = .register j from eq] at none
    cases none
  | literal k p =>
    rw [expression_literal, literal_ofInt]
    refine (place_loads h room).bind ?_
    rintro _ t ⟨id, rfl, free, h₁⟩
    have pool := h.pool id (free ▸ List.mem_cons_self)
    refine (emitUnary_loads (G := fun L m₀ m => F L m₀ m ∧ m.general32 id = Binary32.wordOfInt k) h₁ .movImm rfl
      (wordBytes (wordOfInt k)) fun rsqrt L m₀ m suits ground leaves holds => ?_).bind ?_
    · refine ⟨id, _, m.registers.flags, pool, rfl, settles L m₀ m _ id (free ▸ List.mem_cons_self) holds,
        (Machine.general32_setGeneral32 m id id _).trans ((if_pos rfl).trans ?_)⟩
      exact Machine.immediateWord_wordBytes _
    · rintro _ u ⟨same, h₂⟩
      exact .pure ⟨rfl, h₂, .inr ⟨id, rfl, by rw [same]; exact free⟩⟩

/-! ## Addresses -/

/-- **A value stands at an address**: in memory that has been handed out before
any code, or where a leased register leads. So many registers are free for its
elements, and two more if it takes none. -/
structure Points (s₁ s : LoweringState) (home : Holding) (v : Value) (ty : Ty) (room : Nat) (A : Nat → Machine → Int) : Prop where
  loads : s₁.Loads s fun L m₀ m => m.pointer L v.location = .ofInt (A L m₀)
  typed : v.ty = ty
  writeBack : v.writeBack = none
  place : (s₁.Backs ty.size v.location ∧ v.lease = none ∧ v.location.Inside ty.size home ∧
      room + 2 ≤ s.layout.freeGeneral.length) ∨
    ∃ id, v.location = .indirectRegister id ∧ v.lease = some ⟨.register id, none⟩ ∧
      id ∈ RegisterClass.general.pool ∧ id ∉ s.layout.freeGeneral ∧ room ≤ s.layout.freeGeneral.length

/-- Registers other than those that are free keep their content. -/
theorem general64_settles {id j : Nat} (pool : id ∈ RegisterClass.general.pool) (pool' : j ∈ RegisterClass.general.pool)
    (other : id ≠ j) (m : Machine) (v : UInt64) : (m.setGeneral64 j v).general64 id = m.general64 id := by
  have := Regime.pool_lt pool
  have := Regime.pool_lt pool'
  rw [Machine.general64_set, if_neg (by omega)]

/-- Flags are no general registers. -/
theorem general64_setFlags (m : Machine) (f : Flags) (id : Nat) : (m.setFlags f).general64 id = m.general64 id := rfl

theorem Points.settles {home : Holding} {v : Value} {ty : Ty} {room : Nat} {A : Nat → Machine → Int} (h : Points s₁ s home v ty room A) :
    s.Settles fun L m₀ m => m.pointer L v.location = .ofInt (A L m₀) := by
  intro L m₀ m w j free holds
  rcases h.place with ⟨backs, -⟩ | ⟨id, location, -, pool, notFree, -⟩
  · cases eq : v.location <;> rw [eq] at backs holds <;> first | exact holds | cases backs
  · rw [location] at holds ⊢
    have other : id ≠ j := fun same => notFree (same ▸ free)
    exact (general64_settles pool (h.loads.pool j free) other m w).trans holds

/-- **An index is scaled**, in a leased register. -/
theorem scale_loads {home : Holding} {v i : Value} {ty : Ty} {room stride : Nat} {A : Nat → Machine → Int} {W : Nat → Machine → Word}
    (points : Points s₁ s home v ty room A)
    (h : s₁.Loads t fun L m₀ m => m.pointer L v.location = .ofInt (A L m₀) ∧ m.word L i.location = W L m₀)
    (ok : s₁.Ok) (small : stride < 2 ^ 31)
    (index : s₁.Backs 4 i.location ∧ t.layout.freeGeneral = s.layout.freeGeneral ∨
      ∃ id, i.location = .register id ∧ s.layout.freeGeneral = id :: t.layout.freeGeneral)
    (enough : 0 < t.layout.freeGeneral.length) {α : Type} {k : Lease → Lower α} {Q : α → LoweringState → Prop}
    (next : ∀ r u, t.layout.freeGeneral = r :: u.layout.freeGeneral → (∀ j, i.location = .register j → j ≠ r) →
      s₁.Loads u (fun L m₀ m => m.pointer L v.location = .ofInt (A L m₀) ∧
        m.general64 r = .ofInt (Binary32.intOfWord (W L m₀) * stride)) → Results (k ⟨.register r, none⟩) u Q) :
    Results (do
      let address ← acquire .general [i.location, v.location]
      transfer .dword address.location i.location
      emit .movsxd address.location address.location
      emit .imulImm64 address.location address.location (wordBytes stride)
      k address) t Q := by
  have sub : t.layout.freeGeneral ⊆ s.layout.freeGeneral := by
    rcases index with ⟨-, same⟩ | ⟨id, -, same⟩
    · rw [same]; exact List.Subset.refl _
    · rw [same]; exact List.subset_cons_self _ _
  -- The register of a literal index is not free any more.
  have taken {id : Nat} (same : s.layout.freeGeneral = id :: t.layout.freeGeneral) : id ∉ t.layout.freeGeneral :=
    (List.nodup_cons.1 (same ▸ points.loads.nodup)).1
  have clear : ∀ l ∈ [i.location, v.location], ∀ id ∈ t.layout.freeGeneral, l.registerOf? ≠ some (.general, id) := by
    intro l hl j free eq
    rcases List.mem_cons.1 hl with rfl | hl
    · rcases index with ⟨backs, -⟩ | ⟨id, location, same⟩
      · rw [backs.registerOf?] at eq
        cases eq
      · rw [location] at eq
        cases eq
        exact taken same free
    · rw [List.mem_singleton.1 hl] at eq
      rcases points.place with ⟨backs, -⟩ | ⟨id, location, -, -, notFree, -⟩
      · rw [backs.registerOf?] at eq
        cases eq
      · rw [location] at eq
        cases eq
        exact notFree (sub free)
  refine (acquire_loads h clear enough).bind ?_
  rintro _ u ⟨r, rfl, free, h₁⟩
  have pool := h.pool r (free ▸ List.mem_cons_self)
  have lt := Regime.pool_lt pool
  have keeps {L : Nat} {m₀ m : Machine} (w : UInt64) (holds : m.pointer L v.location = .ofInt (A L m₀)) :
      (m.setGeneral64 r w).pointer L v.location = .ofInt (A L m₀) :=
    points.settles L m₀ m w r (sub (free ▸ List.mem_cons_self)) holds
  have other : ∀ j, i.location = .register j → j ≠ r := by
    rintro j eq rfl
    exact clear _ List.mem_cons_self j (free ▸ List.mem_cons_self) (by rw [eq]; rfl)
  have set (m : Machine) (w : UInt64) : (m.setGeneral64 r w).general64 r = w :=
    (Machine.general64_set m r r w).trans (if_pos rfl)
  have load : Results (transfer .dword (.register r) i.location) u fun _ u' => u'.layout = u.layout ∧
      s₁.Loads u' fun L m₀ m => m.pointer L v.location = .ofInt (A L m₀) ∧ m.general32 r = W L m₀ := by
    have elsewhere : Location.register r ≠ i.location := fun same => other r same.symm rfl
    have integer : ∀ L m₀, s₁.Suits L m₀ → i.location.IsInteger ∧ m₀.Reaches L i.location := fun L m₀ suits => by
      rcases index with ⟨backs, -⟩ | ⟨id, location, same⟩
      · exact suits.reaches ok backs
      · rw [location]
        exact ⟨Regime.pool_lt (points.loads.pool id (same ▸ List.mem_cons_self)), by rintro _ ⟨⟩⟩
    have operand : operandOf i.location = .ok i.location.operand := by
      rcases index with ⟨backs, -⟩ | ⟨id, location, -⟩
      · cases eq : i.location <;> rw [eq] at backs <;> first | rfl | cases backs
      · rw [location]; rfl
    unfold transfer
    rw [if_neg elsewhere, if_pos (show (Location.register r).isRegister = true from rfl)]
    refine emit_loads h₁ .movLoad rfl operand [] ?_
    rintro rsqrt L m₀ m suits ground leaves ⟨container, word⟩
    obtain ⟨integer, reaches⟩ := integer L m₀ suits
    refine ⟨r, _, m.registers.flags, pool, Machine.perform_load ground integer (leaves.reaches reaches) r,
      keeps _ container, ?_⟩
    exact (Machine.general32_setGeneral32 m r r _).trans ((if_pos rfl).trans word)
  refine load.bind ?_
  rintro _ u₁ ⟨same₁, h₂⟩
  refine (emit_loads (G := fun L m₀ m => m.pointer L v.location = .ofInt (A L m₀) ∧
    m.general64 r = .ofInt (Binary32.intOfWord (W L m₀))) h₂ .movsxd rfl rfl [] ?_).bind ?_
  · rintro rsqrt L m₀ m - - - ⟨container, word⟩
    refine ⟨r, signExtend (m.general32 r), m.registers.flags, pool, rfl, keeps _ container, ?_⟩
    rw [general64_setFlags, set, word]
    rfl
  rintro _ u₂ ⟨same₂, h₃⟩
  refine (emit_loads (G := fun L m₀ m => m.pointer L v.location = .ofInt (A L m₀) ∧
    m.general64 r = .ofInt (Binary32.intOfWord (W L m₀) * stride)) h₃ .imulImm64 rfl rfl (wordBytes stride) ?_).bind ?_
  · rintro rsqrt L m₀ m - - - ⟨container, word⟩
    refine ⟨r, m.general64 r * signExtend (immediateWord (wordBytes stride)), _, pool, rfl, ?_⟩
    generalize Flags.ofMul64 _ _ = f
    refine ⟨keeps _ container, ?_⟩
    rw [general64_setFlags, set, word, Machine.signExtend_wordBytes small, UInt64.ofInt_mul]
  rintro _ u₃ ⟨same₃, h₄⟩
  exact next r u₃ (by rw [same₃, same₂, same₁, free]) other h₄

/-- **The address of a container** in memory is added to a register. -/
theorem addPlace_loads {r : Nat} {l : Location} {n : Nat} {A B : Nat → Machine → Int}
    (h : s₁.Loads s fun L m₀ m => m.pointer L l = .ofInt (A L m₀) ∧ m.general64 r = .ofInt (B L m₀))
    (backs : s₁.Backs n l) (positive : 0 < n) (pool : r ∈ RegisterClass.general.pool) (taken : r ∉ s.layout.freeGeneral)
    (room : 0 < s.layout.freeGeneral.length) {avoid : List Location}
    (clear : ∀ a ∈ avoid, ∀ id ∈ s.layout.freeGeneral, a.registerOf? ≠ some (.general, id))
    {α : Type} {k : Lower α} {Q : α → LoweringState → Prop}
    (next : ∀ t, t.layout.freeGeneral.Perm s.layout.freeGeneral →
      s₁.Loads t (fun L m₀ m => m.general64 r = .ofInt (A L m₀ + B L m₀)) → Results k t Q) :
    Results (do
      let base ← acquire .general avoid
      emit .lea base.location l
      emit .add64 (.register r) base.location
      release base
      k) s Q := by
  -- The address of the container goes through a register of its own, which is not the
  -- one of the offset.
  refine (acquire_loads h clear room).bind ?_
  rintro _ u ⟨b, rfl, free, h₁⟩
  have poolB := h.pool b (free ▸ List.mem_cons_self)
  have other : r ≠ b := fun same => taken (free ▸ same ▸ List.mem_cons_self)
  have operand : operandOf l = .ok l.operand := by cases l <;> first | rfl | cases backs
  have set (m : Machine) (id : Nat) (w : UInt64) : (m.setGeneral64 id w).general64 id = w :=
    (Machine.general64_set m id id w).trans (if_pos rfl)
  refine (emit_loads (G := fun L m₀ m => m.general64 b = .ofInt (A L m₀) ∧ m.general64 r = .ofInt (B L m₀)) h₁ .lea rfl
    operand [] ?_).bind ?_
  · rintro rsqrt L m₀ m suits ground leaves ⟨container, offset⟩
    refine ⟨b, m.pointer L l, m.registers.flags, poolB, ?_, (set m b _).trans container, ?_⟩
    · have address : m.operandAddress? ⟨.lea, b, l.operand, []⟩ = some (m.pointer L l).toNat :=
        ground.operandAddress?_pointer operand backs.isInMemory (suits.near backs positive)
      change (.ok (m.setGeneral64 b (UInt64.ofNat ((m.operandAddress? ⟨.lea, b, l.operand, []⟩).getD 0))) :
        Except Fault Machine) = _
      rw [address, Option.getD_some, UInt64.ofNat_toNat]
      rfl
    · rw [general64_setFlags, general64_settles pool poolB other, offset]
  rintro _ u₁ ⟨same₁, h₂⟩
  refine (emit_loads (G := fun L m₀ m => m.general64 r = .ofInt (A L m₀ + B L m₀)) h₂ .add64 rfl rfl [] ?_).bind ?_
  · rintro rsqrt L m₀ m - - - ⟨container, offset⟩
    refine ⟨r, m.general64 r + m.general64 b, _, pool, rfl, ?_⟩
    refine (general64_setFlags _ _ r).trans ((set m r _).trans ?_)
    rw [container, offset, UInt64.ofInt_add, UInt64.add_comm]
  rintro _ u₂ ⟨same₂, h₃⟩
  have released : b ∉ u₂.layout.freeGeneral := by
    rw [same₂, same₁]
    exact (List.nodup_cons.1 (free ▸ h.nodup)).1
  refine (release_loads h₃ poolB released).bind ?_
  rintro _ t ⟨perm, h₄⟩
  rw [same₂, same₁, ← free] at perm
  exact next t perm h₄

/-- **The address of an element that is computed**: so many strides behind its
container, in a leased register. -/
theorem indexMemory_points {home : Holding} {v : Value} {ty : Ty} (element : Ty) {room room' stride : Nat} {A : Nat → Machine → Int}
    (resides : s₁.Resides d f) (points : Points s₁ s home v ty room A) (positive : 0 < room) (fewer : room' ≤ room)
    (leads : v.lease ≠ none → 2 ≤ room ∧ room' < room) {e : Expr} (index : e.IsIndex)
    (typed : e.Typed d f) (small : stride < 2 ^ 31) (sized : 0 < ty.size) :
    Results (indexMemory v stride element (expression false e)) s fun v' t =>
      Points s₁ t home v' element room' fun L m₀ =>
        A L m₀ + Binary32.intOfWord (s₁.indexWord L m₀ e) * stride := by
  -- An index takes a register at most, and so does the address.
  have free : 2 ≤ s.layout.freeGeneral.length := by
    rcases points.place with ⟨-, -, -, free⟩ | ⟨b, -, lease, -, -, free⟩
    · omega
    · have := leads (by rw [lease]; exact Option.some_ne_none _)
      omega
  unfold indexMemory
  dsimp only
  refine (index_loads resides points.loads points.settles index typed (by omega)).bind ?_
  rintro i t ⟨noLease, h, where_⟩
  have enough : s.layout.freeGeneral.length ≤ t.layout.freeGeneral.length + 1 := by
    rcases where_ with ⟨-, same⟩ | ⟨id, -, same⟩
    · have lengths := congrArg List.length same
      omega
    · have lengths := congrArg List.length same
      rw [List.length_cons] at lengths
      omega
  refine scale_loads points h resides.ok small where_ (by omega) ?_
  intro r u leased other h₁
  have poolR := h.pool r (leased ▸ List.mem_cons_self)
  have taken : r ∉ u.layout.freeGeneral := (List.nodup_cons.1 (leased ▸ h.nodup)).1
  rw [leased, List.length_cons] at enough
  have sub : u.layout.freeGeneral ⊆ t.layout.freeGeneral := leased ▸ List.subset_cons_self _ _
  have sub' : t.layout.freeGeneral ⊆ s.layout.freeGeneral := by
    rcases where_ with ⟨-, same⟩ | ⟨id, -, same⟩
    · rw [same]; exact List.Subset.refl _
    · rw [same]; exact List.subset_cons_self _ _
  have gives (t' : LoweringState) (kept : r ∉ t'.layout.freeGeneral) (left : room' ≤ t'.layout.freeGeneral.length)
      (h' : s₁.Loads t' fun L m₀ m =>
        m.general64 r = .ofInt (A L m₀ + Binary32.intOfWord (s₁.indexWord L m₀ e) * stride)) :
      Points s₁ t' home ⟨.indirectRegister r, element, some ⟨.register r, none⟩, none⟩ element room' fun L m₀ =>
        A L m₀ + Binary32.intOfWord (s₁.indexWord L m₀ e) * stride :=
    ⟨h', rfl, rfl, .inr ⟨r, rfl, rfl, poolR, kept, left⟩⟩
  rcases points.place with ⟨backs, direct, -, free⟩ | ⟨b, location, lease, poolB, notFree, free⟩
  · have clear : ∀ a ∈ [Location.register r, i.location, v.location], ∀ id ∈ u.layout.freeGeneral,
        a.registerOf? ≠ some (.general, id) := by
      intro a ha id free eq
      rcases List.mem_cons.1 ha with rfl | ha
      · cases eq
        exact taken free
      · rcases List.mem_cons.1 ha with rfl | ha
        · rcases where_ with ⟨backs, -⟩ | ⟨j, location, same⟩
          · rw [backs.registerOf?] at eq
            cases eq
          · rw [location] at eq
            cases eq
            exact (List.nodup_cons.1 (same ▸ points.loads.nodup)).1 (sub free)
        · rw [List.mem_singleton.1 ha, backs.registerOf?] at eq
          cases eq
    have add := addPlace_loads (k := do finish i; finish v; pure ⟨.indirectRegister r, element, some ⟨.register r, none⟩, none⟩)
      (Q := fun v' t => Points s₁ t home v' element room' fun L m₀ =>
        A L m₀ + Binary32.intOfWord (s₁.indexWord L m₀ e) * stride) h₁ backs sized poolR taken (by omega) clear
      fun t' perm h' => by
        rw [finish, finish, noLease, direct]
        exact .pure (gives t' (fun mem => taken (perm.mem_iff.1 mem)) (by rw [perm.length_eq]; omega) h')
    cases eq : v.location <;> rw [eq] at backs add <;> first | exact add | cases backs
  · rw [location]
    dsimp only
    refine (emit_loads (G := fun L m₀ m => m.general64 r =
      .ofInt (A L m₀ + Binary32.intOfWord (s₁.indexWord L m₀ e) * stride)) h₁ .add64 rfl rfl [] ?_).bind ?_
    · rintro rsqrt L m₀ m - - - ⟨container, offset⟩
      refine ⟨r, m.general64 r + m.general64 b, _, poolR, rfl, ?_⟩
      refine (general64_setFlags _ _ r).trans ((Machine.general64_set m r r _).trans ((if_pos rfl).trans ?_))
      rw [location] at container
      rw [offset, UInt64.ofInt_add, ← container, UInt64.add_comm]
      rfl
    rintro _ u₁ ⟨same, h₂⟩
    rw [finish, finish, noLease, lease]
    refine .bind (Q := fun _ t' => t' = u₁) (.pure rfl) ?_
    intro _ u₂ idle
    rw [idle]
    have busy : b ∉ u₁.layout.freeGeneral := by
      rw [same]
      exact fun free => notFree (sub' (sub free))
    refine (release_loads h₂ poolB busy).bind ?_
    rintro _ t' ⟨perm, h₃⟩
    rw [same] at perm
    refine .pure (gives t' (fun mem => ?_) ?_ h₃)
    · rcases List.mem_cons.1 (perm.mem_iff.1 mem) with rfl | mem
      · exact notFree (sub' (leased ▸ List.mem_cons_self))
      · exact taken mem
    · have := leads (by rw [lease]; exact Option.some_ne_none _)
      rw [perm.length_eq, List.length_cons]
      omega

theorem Points.less {home : Holding} {v : Value} {ty : Ty} {room room' : Nat} {A : Nat → Machine → Int} (h : Points s₁ s home v ty room A)
    (fewer : room' ≤ room) : Points s₁ s home v ty room' A where
  loads := h.loads
  typed := h.typed
  writeBack := h.writeBack
  place := by
    rcases h.place with ⟨backs, direct, inside, free⟩ | ⟨b, location, lease, pool, notFree, free⟩
    · exact .inl ⟨backs, direct, inside, by omega⟩
    · exact .inr ⟨b, location, lease, pool, notFree, by omega⟩

/-- A container in memory gives its element in place. -/
theorem Points.offsetBy {home : Holding} {v : Value} {ty element : Ty} {room k : Nat} {A : Nat → Machine → Int}
    (points : Points s₁ s home v ty room A) (backs : s₁.Backs ty.size v.location) (direct : v.lease = none) (inside : v.location.Inside ty.size home)
    (free : room + 2 ≤ s.layout.freeGeneral.length)
    (below : k + element.size ≤ ty.size) :
    Points s₁ s home { v with location := v.location.offsetBy k, ty := element } element room fun L m₀ => A L m₀ + k where
  loads := points.loads.mono fun L m₀ m holds => by
    rw [Machine.pointer_offsetBy backs.isInMemory backs.direct, holds, UInt64.ofInt_add]
  typed := rfl
  writeBack := points.writeBack
  place := .inl ⟨by
    cases eq : v.location <;> rw [eq] at backs <;> first | cases backs | skip
    all_goals
      simp only [Backs, Location.offsetBy] at backs ⊢
      omega, direct, by
    obtain ⟨j, place, within⟩ := inside
    refine ⟨j + k, ?_, by omega⟩
    rw [place] at backs
    dsimp only
    rw [place]
    cases eq : home.2 <;> rw [eq] at backs <;> first | cases backs | simp only [Location.offsetBy, Nat.add_assoc], free⟩

/-- **The storage of an element** is so many strides behind its container. -/
theorem subscriptValue_points {home : Holding} {v : Value} {ty element : Ty} {room room' : Nat} {A : Nat → Machine → Int}
    (resides : s₁.Resides d f) (points : Points s₁ s home v ty room A) (positive : 0 < room) (fewer : room' ≤ room)
    (leads : v.lease ≠ none → 2 ≤ room ∧ room' < room) (has : ty.element? = some element)
    {e : Expr} (index : e.IsIndex) (typed : e.Typed d f) (assignable : Bool) :
    Results (subscriptValue assignable v e (expression false e)) s fun v' t =>
      Points s₁ t home v' element room' fun L m₀ =>
        A L m₀ + Binary32.intOfWord (s₁.indexWord L m₀ e) * ty.stride := by
  have small : ty.stride < 2 ^ 31 := by cases ty <;> decide
  have sized : 0 < ty.size := by cases ty <;> first | decide | cases has
  have computed := indexMemory_points element resides points positive fewer leads index typed small sized
  unfold subscriptValue
  rw [points.typed, has]
  dsimp only
  -- An index that is a literal in range needs no code in memory; with any other index
  -- the address is computed.
  cases named : literalIndex? ty e with
  | none =>
    rcases points.place with ⟨backs, -⟩ | ⟨b, location, -⟩
    · cases eq : v.location <;> rw [eq] at backs <;> first | exact computed | cases backs
    · rw [location]
      exact computed
  | some k =>
    obtain ⟨p, rfl, below⟩ := index.literal_of_some named
    have word (L : Nat) (m₀ : Machine) :
        Binary32.intOfWord (s₁.indexWord L m₀ (.literal (.int k) .int p)) * (ty.stride : Int) = ((k * ty.stride : Nat) : Int) := by
      have few : k < 2 ^ 31 := Nat.lt_trans below (by cases ty <;> decide)
      rw [indexWord, Machine.wordOfInt_natCast, Machine.intOfWord_ofNat few]
      push_cast
      rfl
    simp only [word]
    have fits : k * ty.stride + element.size ≤ ty.size := by
      have whole := Ty.elementCount_mul_stride_le_size ty (by rw [has]; exact Option.some_ne_none _)
      have size : ty.stride = element.size := by rw [Ty.stride, has]
      have := Nat.mul_le_mul_right ty.stride (Nat.succ_le_of_lt below)
      rw [Nat.succ_mul] at this
      omega
    have near : k * ty.stride < 2 ^ 31 := by
      have : ty.size ≤ 64 := by cases ty <;> decide
      omega
    -- The element of a known number moves the offset, or adds to the address that leads
    -- to the container.
    rcases points.place with ⟨backs, direct, inside, free⟩ | ⟨b, location, lease, pool, notFree, free⟩
    · have moved := (points.offsetBy backs direct inside free fits).less fewer
      cases eq : v.location <;> rw [eq] at backs moved <;> first | exact .pure moved | cases backs
    · rw [location]
      dsimp only
      have gives (t : LoweringState) (same : t.layout = s.layout)
          (h : s₁.Loads t fun L m₀ m => m.general64 b = .ofInt (A L m₀ + (k * ty.stride : Nat))) :
          Points s₁ t home ⟨.indirectRegister b, element, v.lease, v.writeBack⟩ element room' fun L m₀ =>
            A L m₀ + (k * ty.stride : Nat) :=
        ⟨h, rfl, points.writeBack, .inr ⟨b, rfl, lease, pool, by rw [same]; exact notFree,
          by rw [same]; exact Nat.le_trans fewer free⟩⟩
      have start := points.loads
      rw [location] at start
      split
      · refine (emitUnary_loads (G := fun L m₀ m => m.general64 b = .ofInt (A L m₀ + (k * ty.stride : Nat))) start
          .addImm64 rfl _ ?_).bind ?_
        · rintro rsqrt L m₀ m - - - holds
          refine ⟨b, m.general64 b + signExtend (immediateWord (wordBytes (k * ty.stride))), _, pool, rfl, ?_⟩
          have holds : m.general64 b = .ofInt (A L m₀) := holds
          refine (general64_setFlags _ _ b).trans ((Machine.general64_set m b b _).trans ((if_pos rfl).trans ?_))
          rw [Machine.signExtend_wordBytes near, holds, UInt64.ofInt_add]
        · rintro _ t ⟨same, h⟩
          exact .pure (gives t same h)
      · next zero =>
        obtain rfl : k = 0 := by omega
        refine .pure (gives s rfl (start.mono fun L m₀ m holds => ?_))
        have holds : m.general64 b = .ofInt (A L m₀) := holds
        rw [holds, Nat.zero_mul, Int.natCast_zero, Int.add_zero]

end Lower

end Shading
