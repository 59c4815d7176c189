import Shading.Proofs.Lowering.Division
import Shading.Proofs.Lowering.Evaluation
import Shading.Proofs.Simulation.Operations

/-!
# Code that is crossed

What is lowered piece by piece is told piece by piece. The code of a piece is
carried out on a machine that serves a state in which more has been lowered, and
the machine serves it still (`LoweringState.Crosses`). Whatever was at home in a
state before the piece is what it was. Pieces that follow on each other are one
piece (`Crosses.trans`), and each operation is a piece (`Produces.crosses`).

A division of integers passes through the scratch words that all divisions
share, where nothing is at home.
-/

namespace Shading

open LoweringState Permit

namespace LoweringState

variable {s t u : LoweringState}

theorem Follows.trans (h : s.Follows t) (h' : t.Follows u) : s.Follows u where
  toWithin := h.toWithin.trans h'.toWithin
  added := fun c hc => (h'.added c hc).elim (h.added c) fun above => .inr (Nat.le_trans h.globalTop above)

/-- A scope that is closed gives nothing of the regions back for good. -/
theorem leaveScope_rests (id : ScopeId) (s : LoweringState) :
    Results (Lower.leaveScope id) s fun _ t => t.assembly = s.assembly ∧ s.Follows t := by
  unfold Lower.leaveScope
  refine .bindGet ?_
  split
  · exact .pure ⟨rfl, .of_layout rfl rfl⟩
  · next scope _ =>
    have same := Layout.foldl_giveBack_unchanged s.layout scope.registers
    have region : (s.layout.closeScope scope).globalRegion = s.layout.globalRegion := same.2.2
    have high : (s.layout.closeScope scope).localRegion.highWater = s.layout.localRegion.highWater :=
      (show (scope.registers.foldl Layout.giveBack s.layout).localRegion.highWater = _ from
        congrArg BumpAllocator.highWater same.2.1)
    refine .intro rfl ⟨rfl, ⟨?_, ?_, ?_, fun _ hc => hc⟩, fun _ hc => .inl hc⟩
    · exact Nat.le_of_eq (congrArg BumpAllocator.top region).symm
    · exact Nat.le_of_eq (congrArg BumpAllocator.highWater region).symm
    · exact Nat.le_of_eq high.symm

theorem Follows.refl (s : LoweringState) : s.Follows s := .of_layout rfl rfl

/-- The code of a state behind another one goes on behind both. -/
theorem codeSince_trans (h : t.assembly.entries = s.assembly.entries ++ t.codeSince s)
    (h' : u.assembly.entries = t.assembly.entries ++ u.codeSince t) :
    u.codeSince s = t.codeSince s ++ u.codeSince t :=
  codeSince_of_append (by rw [← List.append_assoc, ← h, h'])

/-! ## What stays -/

/-- **What is at home in a state stays as it is.** -/
structure Retains (s : LoweringState) (L : Nat) (m m' : Machine) : Prop where
  base : m'.base = m.base
  size : m'.block.size = m.block.size
  part : ∀ ty l, s.Homes ty l → ∀ k, 4 * k + 4 ≤ ty.size → m'.part L l k = m.part L l k

namespace Retains

variable {L : Nat} {m m' m'' : Machine} {ty : Ty} {l : Location} {v : Content}

theorem refl (s : LoweringState) (L : Nat) (m : Machine) : s.Retains L m m := ⟨rfl, rfl, fun _ _ _ _ _ => rfl⟩

theorem trans (h : s.Retains L m m') (h' : s.Retains L m' m'') : s.Retains L m m'' where
  base := h'.base.trans h.base
  size := h'.size.trans h.size
  part := fun ty l home k inside => (h'.part ty l home k inside).trans (h.part ty l home k inside)

/-- Homes of an earlier state are homes of a later one. -/
theorem back (h : t.Retains L m m') (homes : ∀ ty l, s.Homes ty l → t.Homes ty l) : s.Retains L m m' :=
  ⟨h.base, h.size, fun ty l home => h.part ty l (homes ty l home)⟩

end Retains

/-- **The code between two states is crossed**: a machine that serves a later
state comes to another one that does, and what was at home in a first state
stays. -/
structure Crosses (T b s t : LoweringState) (rsqrt : Word → Word) (L : Nat) (m m' : Machine) : Prop where
  code : t.assembly.entries = s.assembly.entries ++ t.codeSince s
  run : Machine.Track.run rsqrt (.running m) (t.codeSince s) = .running m'
  serves : T.Serves L m'
  retains : b.Retains L m m'

namespace Crosses

variable {T b b' s t u : LoweringState} {rsqrt : Word → Word} {L : Nat} {m m' m'' : Machine}

/-- No code is crossed. -/
theorem rest (b : LoweringState) (rsqrt : Word → Word) (serves : T.Serves L m) (same : t.assembly = s.assembly) :
    Crosses T b s t rsqrt L m m := by
  have none : t.codeSince s = [] := codeSince_of_append (by rw [same, List.append_nil])
  exact ⟨by rw [none, same, List.append_nil], by rw [none]; rfl, serves, .refl b L m⟩

/-- **Pieces of code that follow on each other are one.** -/
theorem trans (h : Crosses T b s t rsqrt L m m') (h' : Crosses T b t u rsqrt L m' m'') :
    Crosses T b s u rsqrt L m m'' := by
  have since := codeSince_trans h.code h'.code
  refine ⟨?_, ?_, h'.serves, h.retains.trans h'.retains⟩
  · rw [since, ← List.append_assoc, ← h.code, h'.code]
  · rw [since, Machine.Track.run_append, h.run, h'.run]

/-- Only the code of the states matters. -/
theorem congr {s' t' : LoweringState} (h : Crosses T b s t rsqrt L m m') (first : s'.assembly = s.assembly)
    (last : t'.assembly = t.assembly) : Crosses T b s' t' rsqrt L m m' := by
  have since : t'.codeSince s' = t.codeSince s := by rw [codeSince, codeSince, first, last]
  exact ⟨by rw [since, first, last, h.code], by rw [since, h.run], h.serves, h.retains⟩

/-- Homes of an earlier state are homes of a later one. -/
theorem back (h : Crosses T b s t rsqrt L m m') (homes : ∀ ty l, b'.Homes ty l → b.Homes ty l) :
    Crosses T b' s t rsqrt L m m' :=
  { h with retains := h.retains.back homes }

end Crosses

end LoweringState

/-! ## Operations -/

/-- A place for what is computed in between: a register or local memory, or none
at all. -/
def Location.IsTransient : Location → Prop
  | .globalMemory _ | .indirectRegister _ | .registerLane _ _ => False
  | _ => True

theorem Lower.Temporary.isTransient {l : Location} (h : Lower.Temporary l) : l.IsTransient := by
  rcases h with ⟨c, id, rfl⟩ | ⟨o, rfl⟩
  · cases c <;> trivial
  · trivial

theorem Location.IsTransient.not_global {l : Location} (h : l.IsTransient) (o : Nat) : l ≠ .globalMemory o := by
  rintro rfl
  exact h

section

variable {P : Permit} {T b s₁ s t : LoweringState} {registers : List Location} {held : List Lease} {rsqrt : Word → Word}
  {L : Nat} {m m' : Machine} {F : Machine → Prop} {ty : Ty} {out : Location}

/-- Nothing that is written is a constant of a state. -/
def Permit.SparesConstants (P : Permit) (T : LoweringState) (L : Nat) (m : Machine) : Prop :=
  ∀ l n k, P.memory l n → m.takes L l n k → ∀ c ∈ T.constants.slots, k < c.2 ∨ c.2 + c.1.size ≤ k

/-- Writes behind the global region spare the constants. -/
theorem Permit.Quiet.sparesConstants (quiet : P.Quiet L m) (ok : T.Ok) (serves : T.Serves L m) :
    P.SparesConstants T L m := fun l n k permitted taken c hc => by
  have above := quiet l n k permitted taken
  have below := (ok.pooled c hc).1
  have top := Nat.le_trans ok.layout.globalTop serves.suits.globals
  simp only [globalTop] at below
  omega

/-- Code that does not write to the global region starts on every machine that
suits the layout. -/
theorem Conduct.starts (h : Conduct P s₁ t registers held) (quiet : P.Quiet L m) (unpooled : ¬ P.pooled)
    (suits : t.Suits L m) : P.Starts t L m where
  suits := suits
  clear := fun l n k permitted taken slot hs contains => by
    have above := quiet l n k permitted taken
    have stop := (h.spills slot hs).2.2.1
    have top := Nat.le_trans h.leads.ok.layout.globalTop suits.globals
    simp only [globalTop] at stop
    have high := contains.2
    omega
  constants := fun pooled => absurd pooled unpooled

/-- **A machine that serves a state serves it still**, behind code that spares
its constants. -/
theorem Conduct.serves (h : Conduct P s₁ t registers held) (follows : t.Follows T) (serves : T.Serves L m)
    (spares : P.SparesConstants T L m) (comes : P.Comes t rsqrt L m m') : T.Serves L m' := by
  have kept := h.keeps _ _ _ _ comes
  refine ⟨⟨kept.grounded comes.starts.suits, serves.suits.globals, kept.size ▸ serves.suits.locals, serves.suits.reach⟩,
    fun c hc i small => ?_, kept.base ▸ serves.base, serves.locals⟩
  refine Eq.trans ?_ (serves.pools c hc i small)
  refine kept.bytes _ (fun l n permitted taken => ?_) fun slot hs contains => ?_
  · have := spares l n _ permitted taken c hc
    omega
  · obtain ⟨-, -, stop, apart⟩ := h.spills slot hs
    obtain ⟨low, high⟩ := contains
    rcases follows.added c hc with before | above
    · have := apart c before
      omega
    · omega

/-- **Homes that are withheld stay as they are.** -/
theorem Conduct.retains (h : Conduct P s₁ t registers []) (comes : P.Comes t rsqrt L m m')
    (withheld : ∀ ty l, b.Homes ty l → P.Withholds L m ty.size l) : b.Retains L m m' where
  base := h.base comes
  size := h.size comes
  part := fun ty l home k inside => by
    by_cases word : k < 4
    · exact h.part comes (withheld ty l home) (by simp) inside word
    · obtain ⟨vector, small⟩ : ty.isVector = true ∧ k / 4 < Lower.rowCount ty := by
        revert inside word
        cases ty <;> simp [Ty.size, Ty.isVector, Lower.rowCount, Ty.isMatrix, Ty.elementCount, Ty.tyClass] <;> omega
      have row := home.row vector small
      have size := Ty.size_rowTy vector
      have part := h.part comes (withheld _ _ row) (by simp) (k := k % 4) (by omega) (Nat.mod_lt _ (by decide))
      rwa [home.part_row vector small, home.part_row vector small, Nat.div_add_mod] at part

/-- **Code that keeps to a permit is crossed.** -/
theorem Produces.crosses (h : Produces P s₁ t registers [] rsqrt L m F) (follows : t.Follows T)
    (serves : T.Serves L m) (starts : P.Starts t L m) (spares : P.SparesConstants T L m)
    (withheld : ∀ ty l, b.Homes ty l → P.Withholds L m ty.size l) :
    ∃ m', Crosses T b P.start t rsqrt L m m' ∧ F m' := by
  obtain ⟨m', comes, holds⟩ := h.reaches starts fun c hc => serves.pools c (follows.kept c hc)
  exact ⟨m', ⟨h.leads.entries_eq, comes.run, h.serves follows serves spares comes, h.retains comes withheld⟩, holds⟩

/-- **An operation is crossed**, whose result goes to a place for what is
computed in between: homes apart from it stay. -/
theorem Produces.crosses_result {ok : s.Ok} {n : Nat} (h : Produces (Permit.result s ok out n) s₁ t registers [] rsqrt L m F)
    (transient : out.IsTransient) (okT : T.Ok) (follows : t.Follows T) (serves : T.Serves L m)
    (apart : ∀ ty l, b.Homes ty l → s.Homes ty l ∧ l.Apart ty.size n out) :
    ∃ m', Crosses T b s t rsqrt L m m' ∧ F m' := by
  have suits := serves.suits.back follows.toWithin
  have quiet : (Permit.result s ok out n).Quiet L m := fun l i k permitted taken => by
    have taken := Machine.takes_of_permitted ok permitted taken
    cases out with
    | localMemory o =>
      simp only [Machine.takes] at taken
      omega
    | globalMemory | indirectRegister | registerLane => exact transient.elim
    | none | register | simdRegister => exact taken.elim
  refine h.crosses follows serves (h.toConduct.starts quiet (fun lane => ?_) suits) (quiet.sparesConstants okT serves)
    fun ty l home => ?_
  · obtain ⟨id, shift, rfl⟩ := lane
    exact transient
  · obtain ⟨home, apart⟩ := apart ty l home
    refine (home.supplies L m).withholds (P := Permit.result s ok out n) (suits.back h.leads.within)
      (fun c id k eq permitted => ?_) (fun id eq => absurd eq (home.direct id)) fun k taken l' i permitted written => ?_
    · subst eq
      rcases permitted.2 with rfl | ⟨-, shift, rfl, -⟩
      · cases c <;> exact apart rfl
      · exact transient
    · have written := Machine.takes_of_permitted ok permitted written
      have top := Nat.le_trans ok.layout.globalTop (suits.back h.leads.within).globals
      have keeps := home.keeps
      cases out with
      | localMemory o =>
        cases l with
        | globalMemory x =>
          have below := keeps.1
          simp only [globalTop] at below
          simp only [Machine.takes] at taken written
          omega
        | localMemory x =>
          simp only [Machine.takes, Location.Apart] at taken written apart
          omega
        | indirectRegister id => exact home.direct id rfl
        | _ => exact taken
      | globalMemory | indirectRegister | registerLane => exact transient
      | none | register | simdRegister => exact written

/-- Code that writes nothing is crossed. -/
theorem Produces.crosses_still {ok : s.Ok} (h : Produces (Permit.still s ok) s₁ t registers [] rsqrt L m F)
    (okT : T.Ok) (follows : t.Follows T) (serves : T.Serves L m) :
    ∃ m', Crosses T s s t rsqrt L m m' ∧ F m' := by
  have suits := serves.suits.back follows.toWithin
  have quiet : (Permit.still s ok).Quiet L m := fun _ _ _ permitted => permitted.elim
  refine h.crosses follows serves (h.toConduct.starts quiet (fun pooled => pooled) suits)
    (quiet.sparesConstants okT serves) fun ty' l home => ?_
  exact ((home.supplies L m).withholds (P := Permit.still s ok) (suits.back h.leads.within)
    (fun _ _ _ _ permitted => permitted) (fun _ _ permitted => permitted) fun _ _ _ _ permitted => permitted.elim)

end

/-! ## Divisions of integers -/

namespace Machine.Track

variable {rsqrt : Word → Word} {X : Nat → Prop} {m m' : Machine} {es : List CodeEntry}

/-- **Straight code is carried out.** -/
theorem run_straight (h : Straight rsqrt X m es m') : run rsqrt (.running m) es = .running m' := by
  induction h with
  | nil m => rfl
  | @instruction m m₁ m₂ i text es performed _ _ ih =>
    rw [← List.singleton_append, run_append, run_instruction, performed]
    exact ih
  | cdq _ ih => exact ih

/-- Lines of a listing do not matter. -/
theorem run_bare (track : Track) (es : List CodeEntry) : run rsqrt track (es.map CodeEntry.bare) = run rsqrt track es := by
  have same (track : Track) (e : CodeEntry) : step rsqrt track e.bare = step rsqrt track e := by
    cases e <;> cases track <;> rfl
  induction es generalizing track with
  | nil => rfl
  | cons e es ih =>
    change run rsqrt (step rsqrt track e.bare) _ = run rsqrt (step rsqrt track e) es
    rw [same, ih]

end Machine.Track

namespace LoweringState.Homes

variable {s : LoweringState} {ty : Ty} {l out : Location} {L slot : Nat} {m m' : Machine}

/-- The home of an integer is a place for integers. -/
theorem isInteger (h : s.Homes .int l) (ok : s.Ok) (reach : s.layout.localSize ≤ 2 ^ 31) : l.IsInteger := by
  have home := h.home
  have fits := h.fits
  have keeps := h.keeps
  cases l with
  | register id => exact Regime.pool_lt fits.2
  | simdRegister id => cases fits.1
  | globalMemory o => trivial
  | localMemory o =>
    have below : o + 4 ≤ s.localTop := keeps
    have top := ok.layout.localTop
    simp only [localTop] at below
    change o < 2 ^ 31
    simp only [Layout.localSize] at reach
    omega
  | none | registerLane id shift | indirectRegister id => exact home.elim

theorem word_eq (h : s.Homes .int l) (L : Nat) (m : Machine) : m.word L l = m.part L l 0 := by
  have home := h.home
  have fits := h.fits
  cases l with
  | register id => rfl
  | simdRegister id => cases fits.1
  | globalMemory o | localMemory o =>
    simp only [Machine.word, Machine.part, Machine.offsetAt, Machine.addressOf, Nat.add_sub_cancel_left, Nat.mul_zero,
      Nat.add_zero]
  | none | registerLane id shift | indirectRegister id => exact home.elim

/-- The bytes of an integer in its home. -/
theorem takes_of_integer (h : s.Homes .int l) (m : Machine) {k : Nat} (taken : l.Takes L k) : m.takes L l 4 k := by
  have home := h.home
  obtain ⟨first, at_, low, high⟩ := taken
  cases l with
  | globalMemory o | localMemory o =>
    cases at_
    exact ⟨low, high⟩
  | register | simdRegister => cases at_
  | none | registerLane id shift | indirectRegister id => exact home.elim

/-- **Homes are apart from the scratch words of divisions.** -/
theorem apart_scratch (h : s.Homes ty l) (ok : s.Ok) (scratch : s.divisionSlots = some (.at slot)) (suits : s.Suits L m)
    {k : Nat} (taken : m.takes L l ty.size k) : k < slot ∨ slot + 12 ≤ k := by
  have keeps := h.keeps
  cases l with
  | globalMemory o =>
    have apart := keeps.2 slot scratch
    simp only [Machine.takes] at taken
    omega
  | localMemory o =>
    obtain ⟨x, same, -, below, -⟩ := ok.division _ scratch
    cases same
    have top := Nat.le_trans ok.layout.globalTop suits.globals
    simp only [globalTop] at below
    simp only [Machine.takes] at taken
    omega
  | indirectRegister id => exact absurd rfl (h.direct id)
  | _ => exact taken.elim

/-- **A division leaves homes alone** that are apart from its result. -/
theorem part_divided (h : s.Homes ty l) (result : s.Homes .int out) (apart : l.Apart ty.size 4 out) (ok : s.Ok)
    (scratch : s.divisionSlots = some (.at slot)) (suits : s.Suits L m) {lhs rhs : Location}
    (divided : m.Divided m' L slot out lhs rhs) {k : Nat} (inside : 4 * k + 4 ≤ ty.size) :
    m'.part L l k = m.part L l k := by
  have leaves := divided.leaves
  have fits := h.fits
  rcases h.isRegister_or with register | memory
  · cases l with
    | register id =>
      have other : out ≠ .register id := by
        rintro rfl
        exact apart rfl
      by_cases saved : id = 0 ∨ id = 2
      · change (m'.general64 id).toUInt32 = m.general32 id
        rw [divided.saved id saved other, UInt32.toUInt32_toUInt64]
      · exact congrArg UInt64.toUInt32 (leaves.general id (Regime.pool_lt fits.2) fun written =>
          written.elim (fun zero => saved (.inl zero)) fun rest => rest.elim (fun two => saved (.inr two)) other)
    | simdRegister id => exact congrArg (Lanes.get · k) (Machine.simd_registers leaves.simd id)
    | _ => cases register
  · have at_ : m'.offsetAt L l = m.offsetAt L l := by
      rw [Machine.offsetAt, Machine.offsetAt, leaves.base,
        Machine.addressOf_congr leaves.base l fun id eq => absurd eq (h.direct id)]
    refine Machine.part_congr memory at_ fun j low high => leaves.bytes j fun written => ?_
    have taken : m.takes L l ty.size j :=
      (Machine.takes_iff memory (suits.spans ok (h.backs ok memory) rfl) j).2 ⟨by omega, by omega⟩
    rcases written with written | ⟨first, last⟩
    · exact h.not_takes ok result suits apart taken (result.takes_of_integer m written)
    · have := h.apart_scratch ok scratch suits taken
      omega

end LoweringState.Homes

/-- Integers that have a quotient are divided. -/
theorem Content.quotient_eq_ok {a b q : Word} (h : Content.quotient a b = .ok q) :
    q = Binary32.wordOfInt ((Binary32.intOfWord a).tdiv (Binary32.intOfWord b)) ∧ b ≠ 0 ∧
      ¬ (Binary32.intOfWord a = -(2 ^ 31) ∧ Binary32.intOfWord b = -1) := by
  unfold Content.quotient at h
  dsimp only at h
  split at h
  · next fits =>
    obtain ⟨nonzero, low, high⟩ := fits
    refine ⟨(Except.ok.inj h).symm, ?_, ?_⟩
    · rintro rfl
      exact nonzero (by decide)
    · rintro ⟨least, minus⟩
      rw [least, minus, Int.tdiv_neg, Int.tdiv_one] at high
      omega
  · cases h

namespace Lower

variable {T b s : LoweringState} {out : Location} {lhs rhs : Value} {rsqrt : Word → Word} {L : Nat} {m : Machine}

/-- **A division of integers is crossed**, if they have a quotient. -/
theorem integerDivision_crosses (ok : s.Ok) (operates : s.Operates .int out [lhs, rhs]) (left : lhs.ty = .int)
    (right : rhs.ty = .int) :
    Results (integerDivision out lhs rhs) s fun _ t => s.Leads t [] [] ∧
      ∀ {T b : LoweringState} {rsqrt : Word → Word} {L : Nat} {m : Machine} {q : Word}, T.Ok → t.Follows T → T.Serves L m →
        (∀ ty l, b.Homes ty l → s.Homes ty l ∧ l.Apart ty.size 4 out) →
        Content.quotient (m.part L lhs.location 0) (m.part L rhs.location 0) = .ok q →
        ∃ m', Crosses T b s t rsqrt L m m' ∧ m'.part L out 0 = q := by
  have homeL := (operates.operands lhs (by simp)).1
  have homeR := (operates.operands rhs (by simp)).1
  rw [left] at homeL
  rw [right] at homeR
  have result := operates.result
  have operand {l : Location} (home : s.Homes .int l) : l.IsOperand := home.home.isOperand
  rintro ⟨⟩ t run
  have leads := (integerDivision_steady (E := fun _ => True) ok (operand result) (operand homeL) (operand homeR)).of_ok run
  refine ⟨leads, fun {T b rsqrt L m q} okT follows serves apart quotient => ?_⟩
  have suits := serves.suits.back follows.toWithin
  have reach := (suits.back leads.within).reach
  have integerOut := result.isInteger ok reach
  have integerL := homeL.isInteger ok reach
  have integerR := homeR.isInteger ok reach
  obtain ⟨t', slot, code, run', scratch, entries, bare⟩ := integerDivision_code ok integerOut integerL integerR
  obtain ⟨-, rfl⟩ := eq_of_runs run run'
  have ok' := leads.ok
  have result' := result.leads leads
  obtain ⟨rfl, nonzero, fits⟩ := Content.quotient_eq_ok quotient
  obtain ⟨_, same, -, below, constants⟩ := ok'.division _ scratch
  cases same
  have top := Nat.le_trans ok'.layout.globalTop suits.globals
  simp only [globalTop] at below
  -- What is asked of the machine is asked of its memory only: a home in memory lies in
  -- the block and apart from the three words of the division.
  have reaches {l : Location} (home : t.Homes .int l) : m.Reaches L l := fun first at_ => by
    have memory : l.isInMemory = true := by cases l <;> first | rfl | cases at_
    have spans := suits.spans ok' (home.backs ok' memory) rfl
    have inside := spans.2
    cases l with
    | globalMemory o | localMemory o =>
      cases at_
      simp only [Machine.addressOf, Ty.size] at inside
      omega
    | _ => cases at_
  have site : m.DivisionSite L slot out lhs.location rhs.location := by
    refine ⟨suits.grounded, ?_, ⟨integerOut, integerL, integerR⟩,
      ⟨reaches result', reaches (homeL.leads leads), reaches (homeR.leads leads)⟩, fun x hx k taken => ?_⟩
    · have := suits.locals
      omega
    · simp only [List.mem_cons, List.not_mem_nil, or_false] at hx
      have scratched {l : Location} (home : t.Homes .int l) (taken : l.Takes L k) : k < slot ∨ slot + 12 ≤ k :=
        home.apart_scratch ok' scratch suits (home.takes_of_integer m taken)
      obtain rfl | rfl | rfl := hx
      · exact scratched result' taken
      · exact scratched (homeL.leads leads) taken
      · exact scratched (homeR.leads leads) taken
  rw [← homeL.word_eq, ← homeR.word_eq] at fits
  rw [← homeR.word_eq] at nonzero
  obtain ⟨m', straight, divided⟩ := Machine.straight_division rsqrt site nonzero fits
  have since : t.codeSince s = code := codeSince_of_append entries
  have leaves := divided.leaves
  -- The division writes eax, edx and its result, and none of them is the register that
  -- the locals are reached by.
  have notBase : ¬ (localBaseRegister = 0 ∨ localBaseRegister = 2 ∨ out = .register localBaseRegister) := by
    rintro (h | h | rfl)
    · cases h
    · cases h
    · exact absurd result.fits.2 (by decide)
  refine ⟨m', ⟨by rw [since, entries], ?_, ?_, leaves.base, leaves.size, fun ty l home k inside => ?_⟩, ?_⟩
  · rw [since, ← Machine.Track.run_bare, bare]
    exact Machine.Track.run_straight straight
  · refine ⟨⟨leaves.grounded serves.suits.grounded notBase, serves.suits.globals, leaves.size ▸ serves.suits.locals,
      serves.suits.reach⟩, fun c hc i small => ?_, leaves.base ▸ serves.base, serves.locals⟩
    -- A constant is in place still: neither the result nor the words of the division
    -- lie in the pool.
    refine (leaves.bytes _ fun written => ?_).trans (serves.pools c hc i small)
    have pooled := (okT.pooled c hc).1
    have high := Nat.le_trans okT.layout.globalTop serves.suits.globals
    simp only [globalTop] at pooled
    rcases written with written | ⟨first, last⟩
    · have taken := result'.takes_of_integer m written
      cases place : out with
      | globalMemory o => exact operates.temporary o place
      | localMemory o =>
        simp only [place, Machine.takes] at taken
        omega
      | indirectRegister id => exact result.direct id place
      | _ =>
        rw [place] at taken
        exact taken
    · rcases follows.added c hc with before | above
      · have := constants c before
        omega
      · simp only [globalTop] at above
        omega
  · obtain ⟨home, apart⟩ := apart ty l home
    exact (home.leads leads).part_divided result' apart ok' scratch suits divided inside
  · rw [← result.word_eq, divided.quotient, homeL.word_eq, homeR.word_eq]

end Lower

end Shading
