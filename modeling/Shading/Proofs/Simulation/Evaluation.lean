import Shading.Proofs.Effects.Lanes
import Shading.Proofs.Frames.Elements
import Shading.Proofs.Simulation.Crossing

/-!
# Steps of a calculation

An expression that only calculates (`Expr.calculates`) is lowered to code and
to a place for its value. While the variables hold what a store says
(`LoweringState.Holds`), it is said here of a step what it computes: of an
action on operands what it computes from what the operands mean
(`Lower.Calculates`), and of an operation what it leaves in the place of its
result (`Lower.Delivers`).
-/

namespace Shading

open LoweringState Permit

namespace Expr

mutual

/-- **Whether an expression only calculates**: nothing is assigned or compared in
it, and each index is a literal in range. -/
def calculates : Expr → Bool
  | literal _ _ _ | name _ _ _ => true
  | binary _ lhs rhs _ _ => lhs.calculates && rhs.calculates
  | assign _ _ _ _ _ | relational _ _ _ _ _ => false
  | negate operand _ _ | not operand _ _ => operand.calculates
  | subscript base index _ _ => base.calculates && (Lower.literalIndex? base.ty index).isSome
  | call _ _ args _ _ => allCalculate args

/-- Whether expressions only calculate. -/
def allCalculate : List Expr → Bool
  | [] => true
  | e :: es => e.calculates && allCalculate es

end

end Expr

namespace Ty

variable {ty element : Ty} {k : Nat}

/-- The words of a type lie in its storage. -/
theorem inside_of_hasWord (word : ty.hasWord k = true) : 4 * k + 4 ≤ ty.size := by
  revert word
  cases ty <;> simp [hasWord, size] <;> omega

/-- The words of an element are words of its container. -/
theorem hasWord_element (has : ty.element? = some element) {n : Nat} (inRange : n < ty.elementCount)
    (word : element.hasWord k = true) : ty.hasWord (n * ty.stride / 4 + k) = true := by
  rcases Lower.element_cases has with ⟨simd, -, stride, -, rfl⟩ | ⟨-, matrix, stride, -⟩
  · rw [stride]
    revert simd has inRange word
    cases ty <;> simp [hasWord, element?, elementCount, RegisterClass.ofTy?] <;> omega
  · rw [stride]
    revert matrix has inRange word
    cases ty <;> cases element <;> simp [hasWord, element?, elementCount, isMatrix] <;> omega

end Ty

namespace Store

variable {σ : Store} {id : SymbolId} {start : Nat} {ty : Ty} {v : Content}

/-- **What is read has been written.** -/
theorem read_eq_ok (h : σ.read id start ty = .ok v) (k : Nat) (word : ty.hasWord k = true) :
    σ id (start + k) = some (v k) := by
  unfold Store.read at h
  split at h
  · next written =>
    have small : k < 16 := by
      have := Ty.inside_of_hasWord word
      have : ty.size ≤ 64 := by cases ty <;> decide
      omega
    have some := List.all_eq_true.1 written k (List.mem_range.2 small)
    rw [word, Bool.not_true, Bool.false_or] at some
    obtain ⟨w, eq⟩ := Option.isSome_iff_exists.1 some
    obtain rfl := Except.ok.inj h
    change _ = Option.some ((σ id (start + k)).getD 0)
    rw [eq, Option.getD_some]
  · cases h

end Store

namespace LoweringState

variable {s t : LoweringState} {d : Declarations} {f : Option FunctionId} {registers : List Location} {L n : Nat}
  {m m' : Machine} {σ : Store} {ty : Ty} {l : Location} {v : Content}

/-- **The variables that a function sees hold what a store says.** -/
def Holds (s : LoweringState) (d : Declarations) (f : Option FunctionId) (L : Nat) (m : Machine) (σ : Store) : Prop :=
  ∀ id v, d.Sees f id → s.declarations.symbols.get? id = some v → ∀ k, v.ty.hasWord k = true → ∀ w, σ id k = some w →
    m.part L v.location k = w

/-- Where a variable is at home. -/
theorem Houses.homesOf (h : s.Houses d (d.Sees f)) {id : SymbolId} {x : Symbol} (sees : d.Sees f id)
    (found : s.declarations.symbols.get? id = some x) : s.Homes x.ty x.location := by
  obtain ⟨home, fits, keeps⟩ := h.homes id x sees found
  exact ⟨home, fits, keeps⟩

/-- What variables hold stays. -/
theorem Holds.retained (h : s.Holds d f L m σ) (houses : s.Houses d (d.Sees f)) (same : t.declarations = s.declarations)
    (retains : s.Retains L m m') : t.Holds d f L m' σ := fun id x sees found k word w known => by
  rw [same] at found
  rw [retains.part _ _ (houses.homesOf sees found) k (Ty.inside_of_hasWord word)]
  exact h id x sees found k word w known

/-- A value at home stays where it is. -/
theorem Retains.carries (h : s.Retains L m m') (home : s.Homes ty l) (carries : m.Carries L ty l v) :
    m'.Carries L ty l v := fun k word => by
  rw [h.part ty l home k (Ty.inside_of_hasWord word), carries k word]

/-- **A place that is foreign to the variables**, and to the constants. -/
structure Foreign (s : LoweringState) (d : Declarations) (f : Option FunctionId) (n : Nat) (l : Location) : Prop where
  transient : l.IsTransient
  apart : ∀ id v, d.Sees f id → s.declarations.symbols.get? id = some v → v.location.Apart v.ty.size n l

theorem Foreign.later (h : s.Foreign d f n l) (same : t.declarations = s.declarations) : t.Foreign d f n l :=
  ⟨h.transient, fun id v sees found => h.apart id v sees (same ▸ found)⟩

/-- **A pooled float** is a word in memory. -/
theorem Pools.float (h : s.Pools m) {w : Word} {o : Nat} (pooled : (.float w, o) ∈ s.constants.slots) : m.wordAt o = w := by
  have bytes : m.block.getBytes o 4 = bytesOfWord w := by
    refine List.ext_getElem? fun k => ?_
    have length : (bytesOfWord w).length = 4 := length_bytesOfWord w
    by_cases small : k < 4
    · rw [Block.getElem?_getBytes small, h _ pooled k small, List.getElem?_eq_getElem (length ▸ small)]
      simp [Constant.bytes, length, small]
    · rw [List.getElem?_eq_none (by simpa using small), List.getElem?_eq_none (by omega)]
  have word := wordOfBytes_bytesOfWord w []
  rwa [List.append_nil, ← bytes] at word

/-- **A value that is at home** in one state, and in nothing foreign that was
kept in an earlier one. -/
structure Dwells (s t : LoweringState) (d : Declarations) (f : Option FunctionId) (v : Value) : Prop where
  homes : t.Homes v.ty v.location
  apart : ∀ n l, s.Keeps n l → s.Foreign d f n l → v.location.Apart v.ty.size n l

/-- An operand is at home later, and apart from a foreign place. -/
theorem Dwells.operand {v : Value} {u : LoweringState} (h : s.Dwells t d f v) (keeps : s.Keeps n l)
    (foreign : s.Foreign d f n l) (leads : t.Leads u registers []) :
    u.Homes v.ty v.location ∧ v.location.Apart v.ty.size n l :=
  ⟨h.homes.leads leads, h.apart n l keeps foreign⟩

end LoweringState

namespace Machine

variable {m : Machine} {L : Nat} {l : Location}

/-- **An immediate word is set** in a place for integers. -/
theorem perform_setWord (rsqrt : Word → Word) (h : m.Has L 4 l) (ground : m.Grounded L)
    (integral : ∀ id, l ≠ .simdRegister id) (immediate : List UInt8) :
    ∃ m', m.perform rsqrt ⟨.movImm, 0, l.operand, immediate⟩ = .ok m' ∧ m'.part L l 0 = immediateWord immediate := by
  rcases h.operand with register | memory
  · cases l with
    | register id => exact ⟨_, rfl, (general32_setGeneral32 m id id _).trans (if_pos rfl)⟩
    | simdRegister id => exact absurd rfl (integral id)
    | _ => cases register
  · have address := h.address? ground (by decide) memory (i := ⟨.movImm, 0, l.operand, immediate⟩) rfl
    have length : (bytesOfWord (immediateWord immediate)).length = 4 := length_bytesOfWord _
    have spans : m.Spans (m.addressOf L l) (bytesOfWord (immediateWord immediate)).length := by
      rw [length]
      exact h.spans memory
    have written := writeBytes_eq_ok.2 ⟨spans, rfl⟩
    refine ⟨_, (write32_memory address _).trans written, ?_⟩
    have word := wordOfBytes_bytesOfWord (immediateWord immediate) []
    rw [List.append_nil] at word
    have at_ (b : Block) : Machine.offsetAt { m with block := b } L l = m.offsetAt L l :=
      congrArg (· - m.base) (addressOf_congr (m := m) rfl l fun _ _ => rfl)
    have put : wordOfBytes ((m.block.setBytes (m.offsetAt L l) (bytesOfWord (immediateWord immediate))).getBytes
        (m.offsetAt L l + 4 * 0) 4) = wordOfBytes ((bytesOfWord (immediateWord immediate)).drop (4 * 0)) :=
      wordOfBytes_getBytes_setBytes m.block (Nat.le_of_eq length.symm)
    rw [Nat.mul_zero, List.drop_zero, word] at put
    rw [part_memory _ L memory, wordAt, Nat.mul_zero]
    exact (congrArg (fun o => wordOfBytes (Block.getBytes _ o 4)) (at_ _)).trans put

end Machine

namespace Lower

variable {s t u : LoweringState} {d : Declarations} {f : Option FunctionId} {ty : Ty} {out : Location} {v w : Value}

/-! ## Steps that compute -/

/-- **A step delivers a value** to a place: when its code is crossed, the place
holds a value that what the machine held before means, and homes apart from the
place are as they were. -/
structure Delivers (s t : LoweringState) (ty : Ty) (out : Location)
    (means : (Word → Word) → Nat → Machine → Content → Prop) : Prop where
  leads : ∃ rs, s.Leads t rs []
  crosses : ∀ {T b : LoweringState} {rsqrt : Word → Word} {L : Nat} {m : Machine} {c : Content}, T.Ok → t.Follows T →
    T.Serves L m → (∀ ty' l, b.Homes ty' l → s.Homes ty' l ∧ l.Apart ty'.size ty.size out) → means rsqrt L m c →
    ∃ m', Crosses T b s t rsqrt L m m' ∧ m'.Carries L ty out c

/-- **What has been calculated** between two states. -/
structure Calculated (d : Declarations) (f : Option FunctionId) (s t : LoweringState) (type : Ty) (v : Value)
    (meaning : (Word → Word) → Store → Except Stuck Content) : Prop where
  leads : ∃ rs, s.Leads t rs []
  ty : v.ty = type
  unleased : v.lease = none
  dwells : type ≠ .void → s.Dwells t d f v
  crosses : ∀ {T : LoweringState} {rsqrt : Word → Word} {L : Nat} {m : Machine} {σ : Store} {c : Content}, T.Ok →
    t.Follows T → T.Serves L m → s.Holds d f L m σ → meaning rsqrt σ = .ok c →
    ∃ m', Crosses T s s t rsqrt L m m' ∧ m'.Carries L type v.location c

/-- **An action calculates a value** of a type, with a meaning. -/
def Calculates (d : Declarations) (f : Option FunctionId) (x : Lower Value) (type : Ty)
    (meaning : (Word → Word) → Store → Except Stuck Content) : Prop :=
  ∀ s : LoweringState, s.Poised d f → Results x s fun v t => Calculated d f s t type v meaning

/-- **An action fills a place** with a value of a type, with a meaning. -/
def Fills (d : Declarations) (f : Option FunctionId) (x : Location → Lower Unit) (type : Ty)
    (meaning : (Word → Word) → Store → Except Stuck Content) : Prop :=
  ∀ (s : LoweringState) (out : Location), s.Poised d f → s.Homes type out → s.Foreign d f type.size out →
    Results (x out) s fun _ t => Delivers s t type out fun rsqrt L m c => ∃ σ, s.Holds d f L m σ ∧ meaning rsqrt σ = .ok c

/-- A course without leases keeps a state poised. -/
theorem poised_step {rs : List Location} (poised : s.Poised d f) (leads : s.Leads t rs []) : t.Poised d f :=
  poised_leads [] poised (by simpa [leasesOf] using leads) (by simp)

theorem finish_unleased (unleased : v.lease = none) : finish v = pure () := by
  rw [finish, unleased, releaseOption]

/-! ## Places -/

/-- **A place that has been given out**, for what is computed in between. -/
structure PlacedFor (s t : LoweringState) (ty : Ty) (out : Location) : Prop extends Places s t ty out where
  leads : s.Leads t out.own []
  temporary : Temporary out
  assembly : t.assembly = s.assembly

theorem place_placed (ok : s.Ok) (ty : Ty) : Results (place ty) s fun out t => PlacedFor s t ty out := by
  intro out t run
  obtain ⟨storage, temporary, assembly, -⟩ := place_rests ok ty out t run
  obtain ⟨leads, places⟩ := (place_ends (E := fun _ => True) (.refl ok) storage).of_ok run
  exact ⟨places, leads, temporary, assembly⟩

namespace PlacedFor

variable (h : PlacedFor s t ty out)

include h

theorem homes : t.Homes ty out := by
  refine ⟨?_, h.fits, h.keeps⟩
  rcases h.temporary with ⟨c, id, rfl⟩ | ⟨o, rfl⟩
  · cases c <;> trivial
  · trivial

/-- What was kept before is apart from the place. -/
theorem apart {n : Nat} {l : Location} (keeps : s.Keeps n l) : l.Apart n ty.size out := apart_of_fresh keeps h.fresh

theorem foreign (houses : s.Houses d (d.Sees f)) : t.Foreign d f ty.size out where
  transient := h.temporary.isTransient
  apart := fun _ _ sees found => h.apart (houses.homesOf sees (h.leads.declarations ▸ found)).keeps

/-- The value in the place. -/
theorem dwells {rs : List Location} (leads : t.Leads u rs []) : s.Dwells u d f { location := out, ty } where
  homes := h.homes.leads leads
  apart := fun _ _ keeps _ => (h.apart keeps).symm

end PlacedFor

/-- **What is delivered in a scope** is delivered. -/
theorem inScope_delivers {means : (Word → Word) → Nat → Machine → Content → Prop} {x : Lower Unit} (ok : s.Ok)
    (h : Results x (opened s) fun _ u => Delivers (opened s) u ty out means) :
    Results (inScope x) s fun _ t => s.Leads t [] [] ∧ Delivers s t ty out means := by
  rintro _ t run
  obtain ⟨u, inner, close⟩ := exists_of_inScope run
  have delivers := h () u inner
  obtain ⟨rs, leads⟩ := delivers.leads
  obtain ⟨closed, assembly⟩ := (leads_close (E := fun _ => True) ok leads).of_ok close
  obtain ⟨-, follows⟩ := leaveScope_rests _ u _ _ close
  refine ⟨closed, ⟨[], closed⟩, fun {T b rsqrt L m c} okT later serves apart meant => ?_⟩
  obtain ⟨m', crosses, carries⟩ := delivers.crosses (b := b) okT (follows.trans later) serves
    (fun ty' l home => by
      obtain ⟨home, apart⟩ := apart ty' l home
      exact ⟨⟨home.home, home.fits, home.keeps⟩, apart⟩) meant
  exact ⟨m', crosses.congr rfl assembly, carries⟩

/-- **A place is given out and filled** in a scope. -/
theorem calculates_of_fills {x : Location → Lower Unit} {meaning : (Word → Word) → Store → Except Stuck Content}
    (fills : Fills d f x ty meaning) : Calculates d f (do
      let out ← place ty
      inScope (x out)
      return { location := out, ty } : Lower Value) ty meaning := by
  intro s poised
  refine (place_placed poised.ok ty).bind fun out s₁ placed => ?_
  have poised₁ := poised_step poised placed.leads
  have homes := placed.homes
  have filled := fills (opened s₁) out (opened_poised poised₁) ⟨homes.home, homes.fits, homes.keeps⟩
    ((placed.foreign poised.houses).later rfl)
  refine (inScope_delivers poised₁.ok filled).bind ?_
  rintro _ t ⟨closed, delivers⟩
  have whole := placed.leads.trans closed
  exact .pure
    { leads := ⟨_, whole⟩
      ty := rfl
      unleased := rfl
      dwells := fun _ => placed.dwells closed
      crosses := fun {T rsqrt L m σ c} okT later serves holds means => by
        obtain ⟨m', crosses, carries⟩ := delivers.crosses (b := s) okT later serves
          (fun ty' l home => ⟨home.leads placed.leads, placed.apart home.keeps⟩)
          ⟨σ, holds.retained poised.houses placed.leads.declarations (.refl s L m), means⟩
        exact ⟨m', crosses.congr placed.assembly.symm rfl, carries⟩ }

end Lower

end Shading
