import Shading.Proofs.Frames.Operations

/-!
# What lane stores change

A value is stored in one lane of a register through masks: shifted to the
lane with nothing beside it, it is joined to the register without that lane.
The other lanes stay as they are, since the pooled masks are what they are in
memory, and nothing beside the lane is in the register that is joined. A lane
is read in the same way, into a place of its own.
-/

namespace Shading

/-! ## Masks -/

namespace Lanes

/-- An operation applies lane by lane. -/
theorem get_map2 (f : Word → Word → Word) (a b : Lanes) {k : Nat} (small : k < 4) :
    (map2 f a b).get k = f (a.get k) (b.get k) := by
  obtain rfl | rfl | rfl | rfl : k = 0 ∨ k = 1 ∨ k = 2 ∨ k = 3 := by omega
  all_goals rfl

/-- **Lanes are only nonzero in one place.** -/
def Only (l : Lanes) (k : Nat) : Prop := ∀ j < 4, j ≠ k → l.get j = 0

theorem only_masked (l : Lanes) : (map2 (· &&& ·) l Shading.lane0Mask).Only 0 := by
  intro j small other
  have mask : Shading.lane0Mask.get j = 0 := by
    obtain rfl | rfl | rfl : j = 1 ∨ j = 2 ∨ j = 3 := by omega
    all_goals rfl
  rw [get_map2 _ _ _ small, mask]
  exact UInt32.and_zero

/-- **The first lane is shifted** to another one. -/
theorem Only.shiftUp {l : Lanes} (h : l.Only 0) {k : Nat} (small : k < 4) : (l.shiftUp (4 * k)).Only k := by
  obtain ⟨x, y, z, w⟩ := l
  have hy : y = 0 := h 1 (by decide) (by decide)
  have hz : z = 0 := h 2 (by decide) (by decide)
  have hw : w = 0 := h 3 (by decide) (by decide)
  subst hy hz hw
  obtain ⟨a, b, c, d, bytes⟩ : ∃ a b c d, bytesOfWord x = [a, b, c, d] := ⟨_, _, _, _, rfl⟩
  have zero : bytesOfWord 0 = [0, 0, 0, 0] := by decide
  intro j smaller other
  have nothing : wordOfBytes [0, 0, 0, 0] = 0 := by decide
  obtain rfl | rfl | rfl | rfl : k = 0 ∨ k = 1 ∨ k = 2 ∨ k = 3 := by omega
  all_goals
    obtain rfl | rfl | rfl | rfl : j = 0 ∨ j = 1 ∨ j = 2 ∨ j = 3 := by omega
    all_goals
      first
        | exact absurd rfl other
        | (rw [Lanes.shiftUp, Machine.get_ofBytes _ (by decide), Lanes.bytes, toList, List.flatMap_cons, List.flatMap_cons,
            List.flatMap_cons, List.flatMap_cons, bytes, zero]
           exact nothing)

/-- A lane that is not cleared. -/
theorem get_clearMask {k j : Nat} (lane : k < 4) (small : j < 4) (other : j ≠ k) :
    (Shading.clearMask k).get j = 0xFFFFFFFF := by
  have word (i : Nat) (different : i ≠ k) : (if i = k % 4 then (0 : Word) else 0xFFFFFFFF) = 0xFFFFFFFF :=
    if_neg (by omega)
  obtain rfl | rfl | rfl | rfl : j = 0 ∨ j = 1 ∨ j = 2 ∨ j = 3 := by omega
  all_goals exact word _ other

end Lanes

namespace Machine

variable {m m' : Machine} {rsqrt : Word → Word} {id j : Nat}

/-- **A register is masked** with a constant in memory. -/
theorem perform_andps {o : Nat} (whole : m.base + m.block.size ≤ addressCount) (inside : o + 16 ≤ m.block.size)
    (run : m.perform rsqrt ⟨.andps, id, .globalAt o, []⟩ = .ok m') :
    m' = m.setSimd id (Lanes.map2 (· &&& ·) (m.simd id) (Lanes.ofBytes (m.block.getBytes o 16))) := by
  have here : m.address? o (.globalAt 0) = some (m.base + o) :=
    congrArg some (address_global whole inside (by decide))
  obtain ⟨v, read, eq⟩ := except_bind_eq_ok.1 (show (m.readAligned o (.globalAt 0) >>= fun v =>
    pure (m.setSimd id (Lanes.map2 (· &&& ·) (m.simd id) v))) = .ok m' from run)
  cases eq
  have read := (readAligned_eq_ok.1 read).2
  rw [readPacked_memory here] at read
  obtain ⟨xs, got, rfl⟩ := except_map_eq_ok.1 read
  obtain ⟨-, rfl⟩ := readBytes_eq_ok.1 got
  rw [Nat.add_sub_cancel_left]

/-- **A register is joined** to another one. -/
theorem perform_orps (run : m.perform rsqrt ⟨.orps, id, .register j, []⟩ = .ok m') :
    m' = m.setSimd id (Lanes.map2 (· ||| ·) (m.simd id) (m.simd j)) := by
  cases run
  rfl

/-- **A register is shifted.** -/
theorem perform_pslldq {bytes : UInt8} (run : m.perform rsqrt ⟨.pslldq, 0, .register j, [bytes]⟩ = .ok m') :
    m' = m.setSimd j ((m.simd j).shiftUp bytes.toNat) := by
  have run : (.ok (m.setSimd j ((m.simd j).shiftUp (ofLittleEndian [bytes]))) : Except Fault Machine) = .ok m' := run
  cases run
  rw [ofLittleEndian, ofLittleEndian, Nat.mul_zero, Nat.add_zero]

end Machine

open LoweringState Permit

/-! ## Words of registers -/

/-- What holds on each machine that comes to a state. -/
def Permit.Shows (P : Permit) (s : LoweringState) (F : Machine → Prop) : Prop :=
  ∀ rsqrt L m₀ m, P.Comes s rsqrt L m₀ m → F m

namespace Conduct

variable {P : Permit} {s₁ s t : LoweringState} {registers : List Location} {held : List Lease} {rsqrt : Word → Word}
  {L : Nat} {m₀ m : Machine}

/-- **A pooled mask is in memory**, since code that relies on it writes no
memory but for spill slots. -/
theorem mask (h : Conduct P s₁ s registers held) (pooled : P.pooled) {l : Lanes} {o : Nat}
    (hc : (.vector l, o) ∈ s.constants.slots) (comes : P.Comes s rsqrt L m₀ m) :
    m.base + m.block.size ≤ Machine.addressCount ∧ o + 16 ≤ m.block.size ∧
      Lanes.ofBytes (m.block.getBytes o 16) = l := by
  have kept := h.keeps _ _ _ _ comes
  have inside : o + 16 ≤ s.globalTop := (h.leads.ok.pooled _ hc).1
  have room : o + 16 ≤ m.block.size := by
    have := Nat.le_trans h.leads.ok.layout.globalTop comes.starts.suits.globals
    have := comes.starts.suits.locals
    have := kept.size
    simp only [globalTop] at inside
    omega
  have length : l.bytes.length = 16 := l.length_bytes
  have bytes : m.block.getBytes o 16 = l.bytes := by
    refine List.ext_getElem? fun k => ?_
    by_cases small : k < 16
    · have before : m₀.block.get (o + k) = l.bytes.getD k 0 := comes.starts.constants pooled _ hc k small
      have now : m.block.get (o + k) = m₀.block.get (o + k) := by
        refine kept.bytes _ (fun l n permitted => absurd permitted (P.alone pooled l n)) fun slot hs inside => ?_
        obtain ⟨low, high⟩ := inside
        rcases (h.spills slot hs).2.2.2 _ hc with below | above
        · have below : o + 16 ≤ slot.offset := below
          omega
        · have above : slot.stop ≤ o := above
          omega
      rw [Block.getElem?_getBytes small, now, before, List.getElem?_eq_getElem (length ▸ small)]
      simp [length, small]
    · rw [List.getElem?_eq_none (by simpa using small), List.getElem?_eq_none (by omega)]
  have same := Lanes.ofBytes_bytes l []
  rw [List.append_nil] at same
  exact ⟨(kept.grounded comes.starts.suits).whole, room, by rw [bytes, same]⟩

/-- **An instruction that computes into an SSE register** of which it spares
the words that may not be written. -/
theorem partly (h : Conduct P s₁ s registers held) {o : Opcode} {id : Nat} {p : Operand Nat}
    (written : o.written? = some .simd) (direct : ∀ j, p ≠ .indirect j) (small : id < 8)
    (spares : ∀ rsqrt L m₀ m m', P.Comes s rsqrt L m₀ m → m.perform rsqrt ⟨o, id, p, []⟩ = .ok m' →
      ∀ k < 4, ¬ P.register .simd id k → (m'.simd id).get k = (m.simd id).get k) (text : String) :
    Conduct P s₁ (Lower.wrote s ⟨o, id, p, []⟩ text) registers held := by
  obtain ⟨unchanged, keeps, other⟩ := Opcode.inPlace?_of_written? written
  have writes {d : RegisterClass} {j : Nat} (writes : (⟨o, id, p, []⟩ : Instruction Nat).Writes d j) :
      d = .simd ∧ j = id := by
    rcases writes.cases other with ⟨same, rfl⟩ | ⟨inPlace, -⟩
    · exact ⟨(Option.some.inj (written.symm.trans same)).symm, rfl⟩
    · rw [unchanged] at inPlace
      cases inPlace
  have step := Lower.leads_wrote h.leads.ok ⟨o, id, p, []⟩ text
  have same : (Lower.wrote s ⟨o, id, p, []⟩ text).spillsSince P.start = s.spillsSince P.start :=
    spillsSince_append h.transcript [.emitted ⟨o, id, p, []⟩ s.layout] rfl
  refine h.instruction (h.leads.step step) h.order step.follows [.emitted ⟨o, id, p, []⟩ s.layout] rfl rfl
    (by simp [Transcript.spills]) (fun x hx _ _ _ _ _ => .inr hx) (.inr direct) fun rsqrt L m₀ m m' comes _ kept run => ?_
  refine (kept.perform_of comes.starts h.within h.leads.ok h.slots run (fun stores => ?_) (fun j _ _ => ?_)
    fun d j k pool _ word _ spared => ?_).mono (by rw [same]; exact fun _ h => h)
  · rw [keeps] at stores
    cases stores
  · exact Machine.perform_general64 run fun i wrote => absurd (writes wrote).1 (by decide)
  · by_cases own : d = .simd ∧ j = id
    · obtain ⟨rfl, rfl⟩ := own
      exact spares _ _ _ _ _ comes run k word spared
    · refine Machine.perform_content run (fun i wrote index => own ?_) k
      obtain ⟨rfl, rfl⟩ := writes wrote
      have := Regime.pool_lt pool
      exact ⟨rfl, by omega⟩

end Conduct

/-! ## Lanes -/

namespace Lower

variable {P : Permit} {s₁ s t : LoweringState} {registers : List Location} {held : List Lease} {v : Value}

/-- **Nothing but the first lane** is left in a register that is masked. -/
theorem maskFirst_conducts (h : Conduct P s₁ s registers held) (pooled : P.pooled) {id : Nat}
    (owns : P.Owns held .simd id) {k : Lower Unit} {Q : Unit → LoweringState → Prop}
    (next : ∀ t, Conduct P s₁ t registers held → (P.Shows t fun m => (m.simd id).Only 0) → Results k t Q) :
    Results (do
      emit .andps (.simdRegister id) (← constant (.vector lane0Mask))
      k) s Q := by
  refine (constant_conducts h _).bind ?_
  rintro _ t ⟨h₁, o, rfl, hc, -⟩
  obtain ⟨text, run⟩ := emit_eq (s := t) .andps (r := .simdRegister id) (m := .globalMemory o) rfl rfl []
  refine .bind (.intro run rfl : Results _ _ fun _ t => t = _) ?_
  rintro _ _ rfl
  refine next _ (h₁.emits (written_emits rfl owns (.inr (by rintro _ ⟨⟩)) []) text) fun rsqrt L m₀ m' comes => ?_
  obtain ⟨m, before, done⟩ := h₁.back_wrote comes
  obtain ⟨whole, inside, mask⟩ := h₁.mask pooled hc before
  rw [Machine.perform_andps whole inside done, mask, Machine.simd_set, if_pos rfl]
  exact Lanes.only_masked _

/-- **The first lane is shifted** to the one that is stored. -/
theorem shiftLane_conducts (h : Conduct P s₁ s registers held) {id k : Nat} (owns : P.Owns held .simd id) (lane : k < 4)
    (shows : P.Shows s fun m => (m.simd id).Only 0) :
    Results (if 0 < 4 * k then emitUnary .pslldq (.simdRegister id) [UInt8.ofNat (4 * k)] else pure ()) s
      fun _ t => Conduct P s₁ t registers held ∧ P.Shows t fun m => (m.simd id).Only k := by
  split
  · obtain ⟨text, run⟩ := emitUnary_eq (s := s) .pslldq (m := .simdRegister id) rfl [UInt8.ofNat (4 * k)]
    have own : P.Own held .simd (.simdRegister id) := ⟨id, rfl, owns⟩
    refine .intro run ⟨emits_operand h (i := ⟨.pslldq, 0, .register id, [UInt8.ofNat (4 * k)]⟩)
      (show operandOf (.simdRegister id) = .ok (.register id) from rfl) rfl (own.admits _) text, ?_⟩
    intro rsqrt L m₀ m' comes
    obtain ⟨m, before, done⟩ := h.back_wrote comes
    have small : (UInt8.ofNat (4 * k)).toNat = 4 * k := by
      rw [UInt8.toNat_ofNat']
      omega
    rw [Machine.perform_pslldq done, small, Machine.simd_set, if_pos rfl]
    exact (shows _ _ _ _ before).shiftUp lane
  · obtain rfl : k = 0 := by omega
    exact .pure ⟨h, shows⟩

/-- **A lane is joined to its register**, after it has been cleared there:
the other lanes stay as they are. -/
theorem joinLane_conducts (h : Conduct P s₁ s registers held) (pooled : P.pooled) {simd id k : Nat} (lane : k < 4)
    (small : simd < 8) (other : id % 8 ≠ simd) (permits : P.register .simd simd k)
    (shows : P.Shows s fun m => (m.simd id).Only k) {f : Lower Unit} {Q : Unit → LoweringState → Prop}
    (next : ∀ t, Conduct P s₁ t registers held → Results f t Q) :
    Results (do
      emit .andps (.simdRegister simd) (← constant (.vector (clearMask k)))
      emit .orps (.simdRegister simd) (.simdRegister id)
      f) s Q := by
  refine (constant_conducts h _).bind ?_
  rintro _ t ⟨h₁, o, rfl, hc, back⟩
  obtain ⟨text, run⟩ := emit_eq (s := t) .andps (r := .simdRegister simd) (m := .globalMemory o) rfl rfl []
  refine .bind (.intro run rfl : Results _ _ fun _ t => t = _) ?_
  rintro _ _ rfl
  have h₂ : Conduct P s₁ (wrote t ⟨.andps, simd, .globalAt o, []⟩ text) registers held := by
    refine h₁.partly rfl (by rintro _ ⟨⟩) small (fun rsqrt L m₀ m m' comes run j word spared => ?_) text
    obtain ⟨whole, inside, mask⟩ := h₁.mask pooled hc comes
    have apart : j ≠ k := fun same => spared (same ▸ permits)
    rw [Machine.perform_andps whole inside run, mask, Machine.simd_set, if_pos rfl, Lanes.get_map2 _ _ _ word,
      Lanes.get_clearMask lane word apart]
    exact UInt32.and_neg_one
  obtain ⟨text', run'⟩ := emit_eq (s := wrote t ⟨.andps, simd, .globalAt o, []⟩ text) .orps (r := .simdRegister simd)
    (m := .simdRegister id) rfl rfl []
  refine .bind (.intro run' rfl : Results _ _ fun _ t => t = _) ?_
  rintro _ _ rfl
  refine next _ (h₂.partly rfl (by rintro _ ⟨⟩) small (fun rsqrt L m₀ m m' comes run j word spared => ?_) text')
  -- The register that is joined has nothing in the other lanes.
  have nothing : (m.simd id).get j = 0 := by
    obtain ⟨m₁, before, done⟩ := h₁.back_wrote comes
    have kept : m.simd id = m₁.simd id := Machine.execute_simd done fun i writes => by
      obtain rfl : simd = i := writes
      omega
    rw [kept]
    exact shows _ _ _ _ (back _ _ _ _ before) j word fun same => spared (same ▸ permits)
  rw [Machine.perform_orps run, Machine.simd_set, if_pos rfl, Lanes.get_map2 _ _ _ word, nothing]
  exact UInt32.or_zero

/-- **Storing a value in a lane** of a register. -/
theorem writeLane_conducts (h : Conduct P s₁ s registers held) (pooled : P.pooled) {simd k : Nat} (lane : k < 4)
    (pool : simd ∈ RegisterClass.simd.pool) (permits : P.register .simd simd k) (reads : P.Reads v.location) :
    Results (writeLane simd (4 * k) v) s fun _ t => Conduct P s₁ t registers held := by
  unfold writeLane
  refine (acquire_conducts h .simd _).bind ?_
  rintro x t ⟨h₁, id, grants⟩
  have own : P.Own (held ++ [x]) .simd x.location := own_of_grants grants
  have location : x.location = .simdRegister id := grants.location
  have owns : P.Owns (held ++ [x]) .simd id :=
    ⟨grants.pool, .inl ⟨x, List.mem_append_right _ (List.mem_singleton_self x), location⟩⟩
  have small := Regime.pool_lt pool
  have other : id % 8 ≠ simd := fun same => by
    have := Regime.pool_lt grants.pool
    refine grants.clear (mem_registersOf.2 ⟨.registerLane simd (4 * k), List.mem_cons_self, ?_⟩)
    rw [show id = simd by omega]
    rfl
  refine (storeWhole_conducts h₁ (own.admitsValue .float) reads).bind fun _ t h₂ => ?_
  rw [location]
  refine maskFirst_conducts h₂ pooled owns fun t h₃ shows => ?_
  refine Results.optional (shiftLane_conducts h₃ owns lane shows) ?_
  rintro t ⟨h₄, shifted⟩
  rw [Nat.mul_div_cancel_left k (by decide)]
  exact joinLane_conducts h₄ pooled lane small other permits shifted fun t h₅ => release_last_conducts h₅

/-! ## Reading a lane -/

/-- **A place that was handed out** for a temporary may be written. -/
theorem admits_places (h : Conduct P s₁ s registers held) {ty : Ty} {out : Location} (places : Places s t ty out)
    (ok : t.Ok) (storage : ty.size ≠ 0)
    (memory : out.isInMemory = true → ∀ b n, b + n ≤ ty.size → P.memory (out.offsetBy b) n) :
    P.AdmitsValue t held out ty := by
  have fits := places.fits
  have fresh := places.fresh
  have keeps := places.keeps
  refine admitsValue_of storage (fun register => ?_) (fun inMemory b n inside => ⟨memory inMemory b n inside, ?_⟩)
    (.inr fun id same => by
      rw [same] at fresh
      exact fresh)
  · cases out with
    | register id =>
      obtain ⟨general, pool⟩ := fits
      have same : (Width.ofTy ty).registerClass = .general := by cases ty <;> first | rfl | cases general
      rw [same]
      exact ⟨id, rfl, pool, .inr (.inl (h.leads.layout.free_of_free (c := .general) fresh))⟩
    | simdRegister id =>
      obtain ⟨simd, pool⟩ := fits
      have same : (Width.ofTy ty).registerClass = .simd := by cases ty <;> first | rfl | cases simd
      rw [same]
      exact ⟨id, rfl, pool, .inr (.inl (h.leads.layout.free_of_free (c := .simd) fresh))⟩
    | _ => cases register
  · have high := ok.layout.localTop
    cases out with
    | globalMemory o => exact Nat.le_trans (by rw [Nat.add_assoc]; exact Nat.add_le_add_left inside o) keeps.1
    | localMemory o =>
      have top : o + ty.size ≤ t.localTop := keeps
      exact Nat.le_trans (by rw [Nat.add_assoc]; exact Nat.add_le_add_left inside o) (Nat.le_trans top high)
    | _ => first | exact fresh.elim | cases inMemory

/-- Copies a lane of a register into a place for it. -/
def copyLane (v : Value) (simd shift : Nat) (out : Location) : Lower Value := do
  let (acc, lease) ← accumulator out .simd [out, v.location]
  emit .movupsLoad acc (.simdRegister simd)
  if 0 < shift then emitUnary .psrldq acc [UInt8.ofNat shift]
  emit .andps acc (← constant (.vector lane0Mask))
  settle out acc lease .single
  finish v
  return { location := out, ty := .float }

theorem materialize_lane {simd shift : Nat} (location : v.location = .registerLane simd shift) :
    materialize v = place .float >>= copyLane v simd shift := by
  rw [materialize_def]
  unfold copyLane
  rw [location]

/-- The copy is where it was placed. -/
theorem copyLane_location (v : Value) (simd shift : Nat) (out : Location) (s : LoweringState) :
    Results (copyLane v simd shift out) s fun w _ => w.location = out := by
  have any {α : Type} (x : Lower α) (s : LoweringState) : Results x s fun _ _ => True := fun _ _ _ => trivial
  unfold copyLane
  refine (any _ _).bind ?_
  rintro ⟨acc, lease⟩ t -
  refine (any _ _).bind fun _ t _ => ?_
  refine Results.optional (any _ _) fun t _ => ?_
  exact (any _ _).bind fun _ t _ => (any _ _).bind fun _ t _ => (any _ _).bind fun _ t _ =>
    (any _ _).bind fun _ t _ => .pure rfl

/-- Copying a lane of a register into a place that may be written. -/
theorem copyLane_conducts (h : Conduct P s₁ s registers held) {out : Location} (simd shift : Nat)
    (admits : P.AdmitsValue s₁ held out .float) (unleased : v.lease = none) :
    Results (copyLane v simd shift out) s fun _ t => Conduct P s₁ t registers held := by
  unfold copyLane
  refine (accumulator_conducts h admits.first _).bind ?_
  rintro ⟨acc, lease⟩ t ⟨h₁, own⟩
  refine (emit_conducts h₁ rfl own (P.reads_location .simd simd) []).bind fun _ t h₂ => ?_
  have shifted : Results (if 0 < shift then emitUnary .psrldq acc [UInt8.ofNat shift] else pure .unit) t
      fun _ u => Conduct P s₁ u registers (held ++ lease.toList) := by
    split
    · exact emitUnary_conducts h₂ (o := .psrldq) rfl (own.admits _) _
    · exact .pure h₂
  refine Results.optional shifted fun t h₃ => ?_
  refine (constant_conducts h₃ _).bind ?_
  rintro _ t ⟨h₄, o, rfl, -⟩
  refine (emit_conducts h₄ rfl own (P.reads_global o) []).bind fun _ t h₅ => ?_
  refine (settle_conducts h₅ .single admits.first own).bind fun _ t h₆ => ?_
  rw [finish, unleased]
  exact .bind (.pure h₆) fun _ t h₆ => .pure h₆

/-- **Copying a lane** of a register into a place of its own, which may be
written. -/
theorem materialize_conducts (h : Conduct P s₁ s registers held) {simd shift : Nat}
    (location : v.location = .registerLane simd shift) (unleased : v.lease = none) {w : Value} {u : LoweringState}
    (run : materialize v s = .ok (w, u))
    (memory : w.location.isInMemory = true → ∀ b n, b + n ≤ 4 → P.memory (w.location.offsetBy b) n) :
    Conduct P s₁ u (registers ++ w.location.own) held ∧ Temporary w.location := by
  rw [materialize_lane location] at run
  obtain ⟨out, t, placed, rest⟩ := bind_eq_ok.1 run
  obtain ⟨h₁, places⟩ := place_conducts h .float out t placed
  obtain ⟨-, temporary, -⟩ := place_rests h.leads.ok .float out t placed
  have within := h₁.within
  -- The new place is bounded by what has been handed out with it.
  have h₁ : Conduct P t t (registers ++ out.own) held := { h₁ with within := .refl t }
  have same : w.location = out := copyLane_location v simd shift out t w u rest
  subst same
  have admits : P.AdmitsValue t held w.location .float :=
    admits_places h places h₁.leads.ok (by decide) memory
  have copied := copyLane_conducts h₁ simd shift admits unleased w u rest
  exact ⟨{ copied with within := within.trans copied.within }, temporary⟩

/-- Any other value is left where it is. -/
theorem materialize_whole (whole : ∀ simd shift, v.location ≠ .registerLane simd shift) : materialize v = pure v := by
  rw [materialize_def]
  split
  · next simd shift location => exact absurd location (whole simd shift)
  · rfl

end Lower

end Shading
