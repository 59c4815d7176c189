import Shading.Proofs.Effects.Moves
import Shading.Proofs.Frames.Calls

/-!
# Lanes of registers can be written and read

A number that is stored in a lane of a register is there afterwards, and the
other lanes are as they were, whatever the register and the scratch register
held. A lane that is copied out is copied bit by bit. So a lane holds what was
written to it last, after any history of writes.
-/

namespace Shading

open LoweringState Permit

/-! ## Lanes -/

namespace Lanes

/-- **One lane is replaced.** -/
def put (l : Lanes) (k : Nat) (w : Word) : Lanes :=
  ⟨if k = 0 then w else l.x, if k = 1 then w else l.y, if k = 2 then w else l.z, if k = 3 then w else l.w⟩

/-- Lanes that are replaced in order. -/
def putAll (l : Lanes) (writes : List (Nat × Word)) : Lanes := writes.foldl (fun l w => l.put w.1 w.2) l

theorem get_put (l : Lanes) (k : Nat) (w : Word) {j : Nat} (small : j < 4) :
    (l.put k w).get j = if j = k then w else l.get j := by
  obtain rfl | rfl | rfl | rfl : j = 0 ∨ j = 1 ∨ j = 2 ∨ j = 3 := by omega
  all_goals simp only [put, get, toList, eq_comm (b := k)]; rfl

theorem get_zero {j : Nat} (small : j < 4) : zero.get j = 0 := by
  obtain rfl | rfl | rfl | rfl : j = 0 ∨ j = 1 ∨ j = 2 ∨ j = 3 := by omega
  all_goals rfl

/-- Only the first lane is left. -/
theorem masked_first (l : Lanes) : map2 (· &&& ·) l Shading.lane0Mask = zero.put 0 l.x := by
  refine ext_get fun j small => ?_
  rw [get_map2 _ _ _ small, get_put _ _ _ small]
  split
  · next first =>
    subst first
    exact UInt32.and_neg_one
  · next other =>
    have mask : Shading.lane0Mask.get j = 0 := by
      obtain rfl | rfl | rfl : j = 1 ∨ j = 2 ∨ j = 3 := by omega
      all_goals rfl
    rw [mask, get_zero small]
    exact UInt32.and_zero

/-- **One lane is shifted** to another one. -/
theorem put_shiftUp (w : Word) {k : Nat} (small : k < 4) : (zero.put 0 w).shiftUp (4 * k) = zero.put k w := by
  obtain ⟨a, b, c, d, four⟩ : ∃ a b c d, bytesOfWord w = [a, b, c, d] := ⟨_, _, _, _, rfl⟩
  have word : UInt32.ofNat (ofLittleEndian [a, b, c, d]) = w := four ▸ wordOfBytes_bytesOfWord w []
  have bytes : (zero.put 0 w).bytes = [a, b, c, d] ++ (⟨0, 0, 0, 0⟩ : Lanes).bytes.drop 4 :=
    congrArg (· ++ (⟨0, 0, 0, 0⟩ : Lanes).bytes.drop 4) four
  have only : (zero.put 0 w).Only 0 := fun j lane other => by rw [get_put _ _ _ lane, if_neg other, get_zero lane]
  refine ext_get fun j lane => ?_
  rw [get_put _ _ _ lane, get_zero lane]
  split
  · next same =>
    subst same
    rw [shiftUp, bytes, Machine.get_ofBytes _ lane]
    obtain rfl | rfl | rfl | rfl : j = 0 ∨ j = 1 ∨ j = 2 ∨ j = 3 := by omega
    all_goals exact word
  · next other => exact only.shiftUp small j lane other

/-- A lane is shifted to the first one. -/
theorem shiftDown_x (l : Lanes) {k : Nat} (small : k < 4) : (l.shiftDown (4 * k)).x = l.get k := by
  have length : (l.bytes.drop (4 * k)).length = 16 - 4 * k := by rw [List.length_drop, length_bytes]
  have first (rest : List UInt8) : wordOfBytes (l.bytes.drop (4 * k) ++ rest) = wordOfBytes (l.bytes.drop (4 * k)) := by
    rw [wordOfBytes, wordOfBytes, List.take_append_of_le_length (by omega)]
  exact (first _).trans (Machine.wordOfBytes_lanes l small)

/-- **A lane is joined to the others.** -/
theorem joined (l : Lanes) (w : Word) {k : Nat} (lane : k < 4) :
    map2 (· ||| ·) (map2 (· &&& ·) l (Shading.clearMask k)) (zero.put k w) = l.put k w := by
  refine ext_get fun j small => ?_
  rw [get_map2 _ _ _ small, get_map2 _ _ _ small, get_put _ _ _ small, get_put _ _ _ small]
  split
  · next same =>
    have mask : (Shading.clearMask k).get j = 0 := by
      subst same
      obtain rfl | rfl | rfl | rfl : j = 0 ∨ j = 1 ∨ j = 2 ∨ j = 3 := by omega
      all_goals rfl
    rw [mask, UInt32.and_zero, UInt32.zero_or]
  · next other =>
    rw [get_clearMask lane small other, get_zero small, UInt32.or_zero]
    exact UInt32.and_neg_one

/-- **What was written to a lane last**, or what was there. -/
def last (l : Lanes) (writes : List (Nat × Word)) (k : Nat) : Word :=
  ((writes.reverse.find? fun w => w.1 == k).map Prod.snd).getD (l.get k)

theorem get_putAll (l : Lanes) (writes : List (Nat × Word)) {k : Nat} (small : k < 4) :
    (l.putAll writes).get k = l.last writes k := by
  induction writes using List.reverseRecOn with
  | nil => rfl
  | append_singleton writes w ih =>
    rw [putAll, List.foldl_append, List.foldl_cons, List.foldl_nil, get_put _ _ _ small, last, List.reverse_append,
      List.reverse_singleton, List.singleton_append, List.find?_cons]
    by_cases same : k = w.1
    · rw [if_pos same, beq_iff_eq.2 same.symm]
      rfl
    · rw [if_neg same, beq_false_of_ne (Ne.symm same)]
      exact ih

end Lanes

/-! ## Stores in lanes -/

theorem Machine.perform_shiftUp (m : Machine) (rsqrt : Word → Word) (id : Nat) {k : Nat} (small : k < 4) :
    m.perform rsqrt ⟨.pslldq, 0, .register id, [UInt8.ofNat (4 * k)]⟩ =
      .ok (m.setSimd id ((m.simd id).shiftUp (4 * k))) := by
  obtain rfl | rfl | rfl | rfl : k = 0 ∨ k = 1 ∨ k = 2 ∨ k = 3 := by omega
  all_goals rfl

theorem Machine.perform_shiftDown (m : Machine) (rsqrt : Word → Word) (id : Nat) {k : Nat} (small : k < 4) :
    m.perform rsqrt ⟨.psrldq, 0, .register id, [UInt8.ofNat (4 * k)]⟩ =
      .ok (m.setSimd id ((m.simd id).shiftDown (4 * k))) := by
  obtain rfl | rfl | rfl | rfl : k = 0 ∨ k = 1 ∨ k = 2 ∨ k = 3 := by omega
  all_goals rfl

namespace Lower

variable {s t : LoweringState} {rsqrt : Word → Word} {L : Nat} {m₀ m : Machine} {v : Value} {simd k : Nat}

variable (rsqrt) in
/-- **A number is stored in a lane** of a register, and the other lanes are as
they were. -/
theorem writeLane_produces (ok : s.Ok) (lane : k < 4) (pool : simd ∈ RegisterClass.simd.pool)
    (notFree : simd ∉ s.layout.free .simd) (number : v.ty = .int ∨ v.ty = .float) (supplies : s.Supplies L m₀ v.ty v.location)
    (aligned : m₀.base % 16 = 0) :
    Results (writeLane simd (4 * k) v) s fun _ t =>
      Produces (Permit.result s ok (.simdRegister simd) 16) s t [] [] rsqrt L m₀ fun m =>
        m.simd simd = (m₀.simd simd).put k (m₀.number L v) := by
  have start : Produces (Permit.still s ok) s s [] [] rsqrt L m₀ fun _ => True := .start _ rsqrt L m₀ trivial
  have size : v.ty.size = 4 := by rcases number with eq | eq <;> rw [eq] <;> rfl
  unfold writeLane
  refine (acquire_produces start .simd _ fun _ _ _ _ _ _ _ _ => trivial).bind ?_
  rintro x t ⟨h₁, id, grants⟩
  have location : x.location = .simdRegister id := grants.location
  have held : ∃ y ∈ [x], y.location = RegisterClass.simd.location id := ⟨x, List.mem_singleton_self x, location⟩
  have small := Regime.pool_lt pool
  have small' := Regime.pool_lt grants.pool
  have other : id ≠ simd := fun same =>
    grants.misses (d := .simd) (j := simd) List.mem_cons_self rfl (same ▸ location)
  have apart : ∀ y ∈ [x], y.location ≠ v.location := fun y hy =>
    List.mem_singleton.1 hy ▸ grants.apart (List.mem_cons_of_mem _ (List.mem_singleton_self _))
  have owns : (Permit.still s ok).Owns [x] .simd id := ⟨grants.pool, .inl held⟩
  rw [location]
  -- The number is converted in the scratch register, with nothing beside it.
  refine (storeFloat_produces (G := fun m => (m.simd id).x = m₀.number L v) h₁ owns number (.inl trivial)
    (fun d j same => (class_of_fits (same ▸ supplies.fits)).1)
    (fun m comes _ => (word_still h₁.toConduct comes supplies size apart).1) fun m m' comes _ _ stored => ?_).bind
      fun _ t h₂ => ?_
  · rw [stored, (word_still h₁.toConduct comes supplies size apart).2.2]
  refine (constant_produces h₂ _).bind ?_
  rintro _ t ⟨h₃, o, rfl, hc⟩
  refine (mask_produces (G := fun m => m.simd id = Lanes.zero.put 0 (m₀.number L v)) h₃ (fun _ _ _ permitted => permitted.elim)
    aligned owns hc fun m m' _ holds _ masked => ?_).bind fun _ t h₄ => ?_
  · rw [masked, Lanes.masked_first, holds]
  have shifts : Results (if 0 < 4 * k then emitUnary .pslldq (.simdRegister id) [UInt8.ofNat (4 * k)] else pure ()) t
      fun _ t => Produces (Permit.still s ok) s t [] ([] ++ [x]) rsqrt L m₀ fun m =>
        m.simd id = Lanes.zero.put k (m₀.number L v) := by
    split
    · refine shift_produces (f := fun l => l.shiftUp (4 * k)) h₄ (.inl rfl) (fun m => m.perform_shiftUp rsqrt id lane) owns fun m m' _ holds _ shifted => ?_
      rw [shifted, holds, Lanes.put_shiftUp _ lane]
    · obtain rfl : k = 0 := by omega
      exact .pure h₄
  refine Results.optional shifts fun t h₅ => ?_
  -- From here on the register is written.
  have h₅ : Produces (Permit.result s ok (.simdRegister simd) 16) s t [] ([] ++ [x]) rsqrt L m₀ fun m =>
      m.simd id = Lanes.zero.put k (m₀.number L v) ∧ m.simd simd = m₀.simd simd := by
    refine Produces.widen (P := Permit.result s ok (.simdRegister simd) 16) (h₅.mono fun m comes holds => ⟨holds, ?_⟩) trivial
    exact h₅.simd comes pool notFree (fun y hy same => other (by
      rw [List.mem_singleton.1 hy, location] at same
      exact Location.simdRegister.inj same)) fun _ _ permitted => permitted
  have owns : (Permit.result s ok (.simdRegister simd) 16).Owns ([] ++ [x]) .simd simd :=
    ⟨pool, .inr (.inr fun _ _ => ⟨pool, .inl rfl⟩)⟩
  have quiet (l : Location) (n k : Nat) (permitted : (Permit.result s ok (.simdRegister simd) 16).memory l n)
      (_ : m₀.takes L l n k) : L ≤ k := by cases permitted.1
  refine (constant_produces h₅ _).bind ?_
  rintro _ t ⟨h₆, o', rfl, hc'⟩
  rw [Nat.mul_div_cancel_left k (by decide)] at hc'
  refine (mask_produces (G := fun m => m.simd id = Lanes.zero.put k (m₀.number L v) ∧
    m.simd simd = Lanes.map2 (· &&& ·) (m₀.simd simd) (clearMask k)) h₆ quiet aligned owns hc'
      fun m m' _ holds touches masked => ⟨?_, ?_⟩).bind fun _ t h₇ => ?_
  · rw [touches.simd id small' fun same => other (Location.simdRegister.inj same).symm, holds.1]
  · rw [masked, holds.2]
  refine (lanes_produces (G := fun m => m.simd simd = (m₀.simd simd).put k (m₀.number L v)) h₇ (o := .orps) rfl owns
    (P := Permit.result s ok (.simdRegister simd) 16) (.inl trivial) (by rintro _ ⟨⟩) (fun m _ _ => has_simd m L id)
    fun m m' _ _ holds _ joined => ?_).bind fun _ t h₈ => ?_
  · rw [joined, Machine.lanesAt_simd, holds.1, holds.2, Lanes.joined _ _ lane]
  refine release_last_produces (c := .simd) h₈ (show x.location = RegisterClass.simd.location id from location) fun m m' _ touches holds => ?_
  rw [touches.simd simd small fun same => other (Location.simdRegister.inj same), holds]

/-! ## Copies of lanes -/

/-- A place of a temporary is an operand. -/
theorem has_places {P : Permit} {t' : LoweringState} {registers : List Location} {held : List Lease} {ty : Ty}
    {out : Location} (places : Places s t ty out) (temporary : Temporary out) (ok : t.Ok) (storage : 0 < ty.size)
    (h : Conduct P t t' registers held) (comes : P.Comes t' rsqrt L m₀ m) : m.Has L ty.size out := by
  rcases temporary with ⟨c, id, rfl⟩ | ⟨o, rfl⟩
  · exact Machine.has_location c id
  · exact (comes.starts.suits.back h.within).has ok (places.keeps.backs ok rfl (by rintro _ ⟨⟩)) storage (h.size comes)

/-- Where a temporary is not. -/
theorem temporary_direct {l : Location} (temporary : Temporary l) : (∀ o, l ≠ .globalMemory o) ∧
    (∀ id, l ≠ .indirectRegister id) ∧ ∀ id shift, l ≠ .registerLane id shift := by
  rcases temporary with ⟨c, id, rfl⟩ | ⟨o, rfl⟩
  · cases c <;> exact ⟨by rintro _ ⟨⟩, by rintro _ ⟨⟩, by rintro _ _ ⟨⟩⟩
  · exact ⟨by rintro _ ⟨⟩, by rintro _ ⟨⟩, by rintro _ _ ⟨⟩⟩

variable (rsqrt) in
/-- **A lane is copied** into a place of its own, bit by bit. -/
theorem materialize_produces (ok : s.Ok) (lane : k < 4) (pool : simd ∈ RegisterClass.simd.pool)
    (notFree : simd ∉ s.layout.free .simd) (location : v.location = .registerLane simd (4 * k)) (unleased : v.lease = none)
    (aligned : m₀.base % 16 = 0) :
    Results (materialize v) s fun w u => ∃ s₁ registers, Produces (Permit.result s ok w.location 4) s₁ u registers [] rsqrt L m₀
      fun m => m.part L w.location 0 = (m₀.simd simd).get k ∧ m.simd simd = m₀.simd simd := by
  rw [materialize_lane location]
  have start : Produces (Permit.still s ok) s s [] [] rsqrt L m₀ fun _ => True := .start _ rsqrt L m₀ trivial
  have temporaries : Results (place .float) s fun out _ => Temporary out :=
    (place_rests ok .float).mono fun _ _ rests => rests.2.1
  refine ((place_produces start .float).and temporaries).bind ?_
  rintro out p ⟨⟨h₁, places⟩, temporary⟩
  have ok' : p.Ok := h₁.leads.ok
  have h₁ : Produces (Permit.still s ok) p p out.own [] rsqrt L m₀ fun _ => True := { h₁ with within := .refl p }
  have admits : (Permit.result s ok out 4).AdmitsValue p [] out .float :=
    admits_places (P := Permit.result s ok out 4) (.refl _) places ok' (by decide)
      fun inMemory b n inside => ⟨inMemory, b, rfl, inside⟩
  unfold copyLane
  refine (accumulator_produces (c := .simd) h₁ [out, v.location] (fun whole => ?_) fun _ _ _ _ _ _ _ _ => trivial).bind ?_
  · have fits := places.fits
    have fresh := places.fresh
    cases out with
    | register id => cases fits.1
    | simdRegister id => exact ⟨id, rfl, fits.2, .inr (.inl fresh)⟩
    | _ => cases whole
  rintro ⟨acc, lease⟩ t' ⟨h₂, id, at_, owns, which⟩
  dsimp only at at_ owns which h₂ ⊢
  subst at_
  have notHeld : ∀ y ∈ ([] : List Lease) ++ lease.toList, y.location ≠ .simdRegister simd := by
    rcases which with ⟨rfl, -⟩ | ⟨x, rfl, grants⟩
    · simp
    · intro y hy
      obtain rfl : y = x := by simpa using hy
      exact grants.misses (d := .simd) (List.mem_cons_of_mem _ (List.mem_singleton_self _)) (by rw [location]; rfl)
  refine (emit_produces (c := .simd) (G := fun m => m.simd id = m₀.simd simd) h₂ (o := .movupsLoad) rfl rfl owns (.inl trivial) []
    fun m comes _ _ => ⟨_, Machine.perform_loadPacked (Machine.has_location .simd simd) (h₂.grounded comes)
      (by rintro _ ⟨⟩) id, fun _ => ?_⟩).bind fun _ t h₃ => ?_
  · rw [Machine.simd_set, if_pos rfl]
    exact h₂.simd comes pool notFree notHeld fun _ _ permitted => permitted
  have shifts : Results (if 0 < 4 * k then emitUnary .psrldq (.simdRegister id) [UInt8.ofNat (4 * k)] else pure ()) t
      fun _ u => Produces (Permit.still s ok) p u out.own ([] ++ lease.toList) rsqrt L m₀ fun m =>
        (m.simd id).x = (m₀.simd simd).get k := by
    split
    · refine shift_produces (f := fun l => l.shiftDown (4 * k)) h₃ (.inr rfl) (fun m => m.perform_shiftDown rsqrt id lane) owns
        fun m m' _ holds _ shifted => ?_
      rw [shifted, holds, Lanes.shiftDown_x _ lane]
    · obtain rfl : k = 0 := by omega
      exact .pure (h₃.mono fun m _ holds => congrArg Lanes.x holds)
  refine Results.optional shifts fun t h₄ => ?_
  refine (constant_produces h₄ _).bind ?_
  rintro _ t ⟨h₅, o, rfl, hc⟩
  refine (mask_produces (G := fun m => (m.simd id).x = (m₀.simd simd).get k) h₅ (fun _ _ _ permitted => permitted.elim)
    aligned owns hc fun m m' _ holds _ masked => ?_).bind fun _ t h₆ => ?_
  · rw [masked, Lanes.masked_first, ← holds]
    rfl
  have h₆ := Produces.widen (P := Permit.result s ok out 4) h₆ trivial
  refine (settle_produces (w := .single) (G := fun m => m.part L out 0 = (m₀.simd simd).get k) h₆
    (show _ = RegisterClass.simd.location id from rfl) ?_ admits.first
    (fun m comes _ => has_places places temporary ok' (by decide) h₆.toConduct comes) ?_ ?_
      fun m m' holds _ moved => (moved 0 (by decide)).trans holds).bind fun _ u h₇ => ?_
  · rcases which with ⟨none, same⟩ | ⟨x, some, grants⟩
    · exact .inl ⟨none, same⟩
    · exact .inr ⟨x, some, grants.location, grants.apart List.mem_cons_self⟩
  · rintro j - ⟨⟩
  · exact small_of_fits places.fits
  rw [finish, unleased]
  refine .intro rfl ⟨p, out.own, h₇.mono fun m comes holds => ⟨holds, ?_⟩⟩
  -- The place of the copy was free, and the register was not.
  have fresh := places.fresh
  refine h₇.simd comes pool notFree (by simp) fun j _ permitted => ?_
  rcases permitted.2 with rfl | ⟨-, shift, rfl, -⟩
  · exact notFree fresh
  · exact fresh

end Lower

/-! ## The laws of lanes -/

namespace Lower

/-- **A store of a number in a lane** of an occupied register, and a machine
to carry it out on. -/
structure WritesLane (simd k : Nat) (v : Value) (s t : LoweringState) (L : Nat) (m : Machine) : Prop where
  ok : s.Ok
  lane : k < 4
  pool : simd ∈ RegisterClass.simd.pool
  occupied : simd ∉ s.layout.free .simd
  number : v.ty = .int ∨ v.ty = .float
  supplies : s.Supplies L m v.ty v.location
  lowered : writeLane simd (4 * k) v s = .ok (.unit, t)
  serves : t.Serves L m

/-- **A copy of a lane** of an occupied register, and a machine to carry it
out on. -/
structure CopiesLane (simd k : Nat) (v w : Value) (s t : LoweringState) (L : Nat) (m : Machine) : Prop where
  ok : s.Ok
  lane : k < 4
  pool : simd ∈ RegisterClass.simd.pool
  occupied : simd ∉ s.layout.free .simd
  location : v.location = .registerLane simd (4 * k)
  unleased : v.lease = none
  lowered : materialize v s = .ok (w, t)
  serves : t.Serves L m

/-- **What has been written to the lanes of a register** between two machines,
with the lanes in order. Code in between leaves the register alone. -/
inductive LaneHistory (rsqrt : Word → Word) (L simd : Nat) : Machine → List (Nat × Word) → Machine → Prop
  | none (m : Machine) : LaneHistory rsqrt L simd m [] m
  | write {m m' m'' : Machine} {writes : List (Nat × Word)} {k : Nat} {v : Value} {s t : LoweringState}
      (before : LaneHistory rsqrt L simd m writes m') (store : WritesLane simd k v s t L m')
      (run : Machine.Track.run rsqrt (.running m') (t.codeSince s) = .running m'') :
      LaneHistory rsqrt L simd m (writes ++ [(k, m'.number L v)]) m''
  | other {m m' m'' : Machine} {writes : List (Nat × Word)} (before : LaneHistory rsqrt L simd m writes m')
      (same : m''.simd simd = m'.simd simd) : LaneHistory rsqrt L simd m writes m''

variable {s t : LoweringState} {rsqrt : Word → Word} {L : Nat} {m m' : Machine} {v w : Value} {simd k : Nat}

/-- A store in a lane is carried out. -/
theorem WritesLane.run (h : WritesLane simd k v s t L m) (rsqrt : Word → Word) :
    ∃ m', Machine.Track.run rsqrt (.running m) (t.codeSince s) = .running m' ∧
      m'.simd simd = (m.simd simd).put k (m.number L v) := by
  have produces := writeLane_produces rsqrt h.ok h.lane h.pool h.occupied h.number h.supplies h.serves.base _ _ h.lowered
  have starts : (Permit.result s h.ok (.simdRegister simd) 16).Starts t L m :=
    ⟨h.serves.suits, fun _ _ _ permitted => (by cases permitted.1), by rintro ⟨_, _, ⟨⟩⟩⟩
  obtain ⟨m', comes, holds⟩ := produces.reaches starts h.serves.pools
  exact ⟨m', comes.run, holds⟩

/-- A copy of a lane is carried out. -/
theorem CopiesLane.run (h : CopiesLane simd k v w s t L m) (rsqrt : Word → Word) :
    ∃ m', Machine.Track.run rsqrt (.running m) (t.codeSince s) = .running m' ∧
      m'.part L w.location 0 = (m.simd simd).get k ∧ m'.simd simd = m.simd simd := by
  obtain ⟨s₁, registers, produces⟩ := materialize_produces rsqrt (L := L) h.ok h.lane h.pool h.occupied
    h.location h.unleased h.serves.base _ _ h.lowered
  obtain ⟨conduct, temporary⟩ := materializeCall_conducts h.ok h.location h.unleased h.lowered
  obtain ⟨notGlobal, notIndirect, notLane⟩ := temporary_direct temporary
  have begins : s.Begins t w.location 4 L m := ⟨h.serves.suits, fun id same => absurd same (notIndirect id),
    fun lane => absurd lane.choose_spec.choose_spec (notLane _ _)⟩
  have starts := begins.starts h.ok conduct fun o same => absurd same (notGlobal o)
  obtain ⟨m', comes, holds⟩ := produces.reaches starts h.serves.pools
  exact ⟨m', comes.run, holds⟩

/-- **The register holds what was written** to its lanes. -/
theorem LaneHistory.simd_eq {writes : List (Nat × Word)} (h : LaneHistory rsqrt L simd m writes m') :
    m'.simd simd = (m.simd simd).putAll writes := by
  induction h with
  | none => rfl
  | write before store run ih =>
    obtain ⟨m₁, run', put⟩ := store.run rsqrt
    rw [run] at run'
    cases run'
    rw [put, ih, Lanes.putAll, Lanes.putAll, List.foldl_append]
    rfl
  | other before same ih => rw [same, ih]

/-- **Lanes of registers obey the laws of reads and writes.** A store in a lane
is carried out, the lane holds the number then, and the others are as they
were. A copy of a lane is carried out, the place of the copy holds the lane
bit by bit, and the register is as it was. So after any history a lane that is
copied out is what was written to it last. -/
theorem lanes_lawful (rsqrt : Word → Word) (L simd : Nat) :
    (∀ k v s t m, WritesLane simd k v s t L m →
      ∃ m', Machine.Track.run rsqrt (.running m) (t.codeSince s) = .running m' ∧
        (m'.simd simd).get k = m.number L v ∧ ∀ j < 4, j ≠ k → (m'.simd simd).get j = (m.simd simd).get j) ∧
    (∀ k v w s t m, CopiesLane simd k v w s t L m →
      ∃ m', Machine.Track.run rsqrt (.running m) (t.codeSince s) = .running m' ∧
        m'.part L w.location 0 = (m.simd simd).get k ∧ m'.simd simd = m.simd simd) ∧
    ∀ m writes m₁ k v w s t, LaneHistory rsqrt L simd m writes m₁ → CopiesLane simd k v w s t L m₁ →
      ∃ m', Machine.Track.run rsqrt (.running m₁) (t.codeSince s) = .running m' ∧
        m'.part L w.location 0 = (m.simd simd).last writes k := by
  refine ⟨fun k v s t m store => ?_, fun k v w s t m copy => copy.run rsqrt,
    fun m writes m₁ k v w s t history copy => ?_⟩
  · obtain ⟨m', run, put⟩ := store.run rsqrt
    refine ⟨m', run, ?_, fun j small other => ?_⟩
    · rw [put, Lanes.get_put _ _ _ store.lane, if_pos rfl]
    · rw [put, Lanes.get_put _ _ _ small, if_neg other]
  · obtain ⟨m', run, copied, -⟩ := copy.run rsqrt
    exact ⟨m', run, by rw [copied, history.simd_eq, Lanes.get_putAll _ _ copy.lane]⟩

/-! ## A lane under pressure -/

/-- A machine with the masks of the third lane in memory, a three in the first
general register, and four words in the first SSE register. -/
def maskedMachine : Machine :=
  let block := ((Block.new 128).setBytes 16 lane0Mask.bytes).setBytes 32 (clearMask 2).bytes
  let idle : Machine := { base := 4096, block, ip := 0, registers := {} }
  ((idle.setGeneral64 0 3).setGeneral64 6 (4096 + 64)).setSimd 0 ⟨5, 6, 7, 8⟩

/-- The integer that is stored. -/
def storedInteger : Value := ⟨.register 0, .int, none, none⟩

/-- The lane that is copied. -/
def copiedLane : Value := ⟨.registerLane 0 8, .float, none, none⟩

/-- Whether something holds of a store and a copy of a lane where all SSE
registers are occupied, and of the machines in between. -/
def passesLane (holds : LoweringState → LoweringState → LoweringState → Machine → Bool) : Bool :=
  match (placeVectors 8 >>= fun _ => place .int) Helper.idleState with
  | .ok (_, s) =>
    match writeLane 0 8 storedInteger s with
    | .ok (_, t) =>
      match materialize copiedLane t with
      | .ok (_, u) =>
        match Machine.Track.run id (.running maskedMachine) (t.codeSince s) with
        | .running m => holds s t u m
        | _ => false
      | .error _ => false
    | .error _ => false
  | .error _ => false

/-- What is asked of the states and of the machine in between. -/
def lanePrepared (s t u : LoweringState) (m : Machine) : Bool :=
  s.layout.freeSimd == [] && !s.layout.freeGeneral.contains 0 && t.layout.freeSimd == [] &&
    t.layout.globalSize == 48 && u.layout.globalSize == 64 && t.layout.localSize == 0 && u.layout.localSize == 4 &&
    decide (t.Pools maskedMachine) && decide (u.Pools m) && m.base == 4096 && m.block.size == 4096 &&
    m.general64 6 == 4096 + 64

theorem exists_of_passesLane {holds : LoweringState → LoweringState → LoweringState → Machine → Bool}
    (h : passesLane holds = true) : ∃ s t u w m, s.Ok ∧ writeLane 0 8 storedInteger s = .ok (.unit, t) ∧
      materialize copiedLane t = .ok (w, u) ∧
      Machine.Track.run id (.running maskedMachine) (t.codeSince s) = .running m ∧ holds s t u m = true := by
  unfold passesLane at h
  split at h
  · next x s placed =>
    split at h
    · next y t stored =>
      split at h
      · next w u copied =>
        split at h
        · next m run =>
          have ok : Results (placeVectors 8 >>= fun _ => place .int) Helper.idleState fun _ t => t.Ok :=
            (placeVectors_ok 8 Helper.ok_idleState).bind fun _ t ok =>
              ok_of_conduct ok fun P h => (place_conducts h .int).mono fun _ _ h' => ⟨_, _, h'.1⟩
          exact ⟨s, t, u, w, m, ok _ _ placed, stored, copied, run, h⟩
        · cases h
      · cases h
    · cases h
  · cases h

set_option maxRecDepth 100000 in
/-- **An integer is stored in a lane and copied out of it** where all SSE
registers are occupied: it is read as a float. -/
theorem lanes_lawful_occupied : ∃ s t u w m m', s.layout.freeSimd = [] ∧ WritesLane 0 2 storedInteger s t 64 maskedMachine ∧
    Machine.Track.run id (.running maskedMachine) (t.codeSince s) = .running m ∧ (m.simd 0).get 2 = 0x40400000 ∧
    (m.simd 0).get 1 = 6 ∧ LaneHistory id 64 0 maskedMachine [(2, 0x40400000)] m ∧ CopiesLane 0 2 copiedLane w t u 64 m ∧
    Machine.Track.run id (.running m) (u.codeSince t) = .running m' ∧ m'.part 64 w.location 0 = 0x40400000 := by
  obtain ⟨s, t, u, w, m, ok, stored, copied, run, prepared⟩ :=
    exists_of_passesLane (show passesLane lanePrepared = true by decide +kernel)
  simp only [lanePrepared, Bool.and_eq_true, beq_iff_eq, decide_eq_true_eq, Bool.not_eq_true', List.contains_eq_mem,
    decide_eq_false_iff_not] at prepared
  obtain ⟨⟨⟨⟨⟨⟨⟨⟨⟨⟨⟨free, general⟩, free'⟩, globals⟩, globals'⟩, locals⟩, locals'⟩, pools⟩, pools'⟩, base⟩, size⟩, top⟩ := prepared
  have suits {t : LoweringState} {m : Machine} (base : m.base = 4096) (size : m.block.size = 4096)
      (top : m.general64 6 = 4096 + 64) (globals : t.layout.globalSize ≤ 64) (locals : t.layout.localSize ≤ 4) :
      t.Suits 64 m := by
    refine ⟨⟨?_, ?_⟩, globals, ?_, ?_⟩
    · change (m.general64 6).toNat = _
      rw [top, base]
      rfl
    · rw [base, size]
      decide
    · rw [size]
      omega
    · omega
  have occupied {s : LoweringState} (free : s.layout.freeSimd = []) : 0 ∉ s.layout.free .simd := by
    rw [show s.layout.free .simd = [] from free]
    exact List.not_mem_nil
  have number : maskedMachine.number 64 storedInteger = 0x40400000 := by decide +kernel
  have store : WritesLane 0 2 storedInteger s t 64 maskedMachine :=
    ⟨ok, by decide, by decide, occupied free, .inl rfl, ⟨⟨rfl, by decide⟩, by rintro _ _ ⟨⟩, general, by rintro _ ⟨⟩⟩, stored,
      ⟨suits rfl (by decide +kernel) (by decide +kernel) (by rw [globals]; decide) (by rw [locals]; decide), pools, by decide,
        by decide⟩⟩
  have ok' : t.Ok := (writeLane_produces id ok store.lane store.pool store.occupied store.number store.supplies
    store.serves.base _ _ stored).leads.ok
  have copy : CopiesLane 0 2 copiedLane w t u 64 m :=
    ⟨ok', by decide, by decide, occupied free', rfl, rfl, copied,
      ⟨suits base size top (Nat.le_of_eq globals') (Nat.le_of_eq locals'), pools', by rw [base], by decide⟩⟩
  have history : LaneHistory id 64 0 maskedMachine [(2, 0x40400000)] m := number ▸ .write (.none maskedMachine) store run
  obtain ⟨writes, -, reads⟩ := lanes_lawful id 64 0
  obtain ⟨m₁, run', written, others⟩ := writes 2 storedInteger s t maskedMachine store
  rw [run] at run'
  cases run'
  obtain ⟨m', copies, part⟩ := reads maskedMachine _ m 2 copiedLane w t u history copy
  refine ⟨s, t, u, w, m, m', free, store, run, written.trans number, ?_, history, copy, copies, part⟩
  exact (others 1 (by decide) (by decide)).trans (by decide +kernel)

end Lower

end Shading
