import Shading.Proofs.Effects.Produces
import Shading.Proofs.Frames.Operations

/-!
# What moves compute

A lease saves a register that is borrowed and loads it again, which touches
one slot and one register. A value is moved word by word, and a number is
converted on the way if it has to be.
-/

namespace Shading

open LoweringState Permit

/-- A leased register is none that is to be avoided. -/
theorem Layout.Grants.misses {l l' : Layout} {c d : RegisterClass} {avoid : List Location} {x : Lease} {id j : Nat}
    (grants : l.Grants l' c avoid x id) {a : Location} (mem : a ∈ avoid) (register : a.registerOf? = some (d, j)) :
    x.location ≠ d.location j := by
  rw [grants.location]
  intro same
  obtain ⟨rfl, rfl⟩ := RegisterClass.location_inj same
  exact grants.clear (mem_registersOf.2 ⟨a, mem, register⟩)

/-- A leased register is no place that is to be avoided. -/
theorem Layout.Grants.apart {l l' : Layout} {c : RegisterClass} {avoid : List Location} {x : Lease} {id : Nat}
    (grants : l.Grants l' c avoid x id) {a : Location} (mem : a ∈ avoid) : x.location ≠ a := by
  rintro rfl
  refine grants.misses mem (d := c) (j := id) ?_ grants.location
  rw [grants.location, RegisterClass.registerOf?_location]

namespace Lower

variable {P : Permit} {s₁ s t : LoweringState} {registers : List Location} {held : List Lease}
  {rsqrt : Word → Word} {L : Nat} {m₀ : Machine} {F G : Machine → Prop} {c : RegisterClass} {id : Nat}

/-! ## Leases -/

theorem spillWidth_words (c : RegisterClass) : 4 * (spillWidth c).words = c.spillSize := by cases c <;> rfl

/-- **A register is leased**, with the code that saves a borrowed one. -/
theorem acquire_outcome (ok : s.Ok) (c : RegisterClass) (avoid : List Location) :
    Results (acquire c avoid) s fun x t => ∃ l id, s.layout.Grants l c avoid x id ∧
      (t = { s with layout := l, transcript := .leased x avoid :: s.transcript } ∨
        ∃ o text, s.globalTop ≤ o ∧ o + c.spillSize ≤ l.globalRegion.top ∧
          t = wrote { s with layout := l, transcript := .leased x avoid :: s.transcript }
            ⟨(spillWidth c).store, id, .globalAt o, []⟩ text) := by
  unfold acquire
  refine .bindGet ?_
  rcases Layout.lease_cases ok.layout c avoid with ⟨-, fails⟩ | ⟨x, l, id, leased, grants⟩
  · rw [fails]
    rintro _ _ ⟨⟩
  rw [leased]
  refine .bind (.intro rfl ⟨rfl, rfl⟩ : Results (liftM (Except.ok (x, l))) s fun a t => (x, l) = a ∧ s = t) ?_
  rintro _ _ ⟨rfl, rfl⟩
  refine .bind (.modify rfl : Results (modify _) _ fun _ t => t = _) ?_
  rintro _ _ rfl
  refine .bind (.modify rfl : Results (record _) _ fun _ t => t = _) ?_
  rintro _ _ rfl
  rcases grants.spill with ⟨none, -⟩ | ⟨-, o, spill, above, stop, -⟩
  · simp only [none]
    exact .pure ⟨l, id, grants, .inl rfl⟩
  · simp only [spill]
    obtain ⟨text, run⟩ := emitStore_eq (s := { s with layout := l, transcript := .leased x avoid :: s.transcript })
      (spillWidth c).store (rfl : operandOf (.globalMemory o) = .ok (.globalAt o))
      (grants.location ▸ Regime.registerField_location c id)
    refine .bind (.intro run rfl : Results _ _ fun _ t => t = _) ?_
    rintro _ _ rfl
    exact .pure ⟨l, id, grants, .inr ⟨o, text, above, stop, rfl⟩⟩

/-- **A register is leased**: what does not depend on memory that is still to
be handed out goes on to hold. -/
theorem acquire_produces (h : Produces P s₁ s registers held rsqrt L m₀ F) (c : RegisterClass) (avoid : List Location)
    (stable : ∀ m m' o n, s.globalTop ≤ o → o + n ≤ L → m.Touches L (.globalMemory o) n m' → F m → F m') :
    Results (acquire c avoid) s fun x t => Produces P s₁ t registers (held ++ [x]) rsqrt L m₀ F ∧
      ∃ id, s.layout.Grants t.layout c avoid x id := by
  have leads : Results (acquire c avoid) s fun x t => s.Leads t [] ([] ++ [x]) :=
    Results.ofEnds ((acquire_ends (E := fun _ => True) (.refl h.leads.ok) (.inr trivial)).mono
      (fun _ _ ends => ends.1) fun _ _ => trivial)
  refine ((acquire_conducts h.toConduct c avoid).and (leads.and (acquire_outcome h.leads.ok c avoid))).mono ?_
  rintro x t ⟨⟨conduct, grants⟩, leads, l, id, -, rfl | ⟨o, text, above, stop, rfl⟩⟩
  · exact ⟨h.rest conduct leads.follows [.leased x avoid] rfl rfl, grants⟩
  refine ⟨h.extend conduct leads.follows [.emitted ⟨(spillWidth c).store, id, .globalAt o, []⟩ l, .leased x avoid] rfl rfl
    fun m comes starts pools holds => ?_, grants⟩
  have backs : (wrote { s with layout := l, transcript := .leased x avoid :: s.transcript }
      ⟨(spillWidth c).store, id, .globalAt o, []⟩ text).Backs (4 * (spillWidth c).words) (.globalMemory o) := by
    rw [spillWidth_words]
    exact stop
  have has := starts.suits.has conduct.leads.ok backs (by cases c <;> decide) (h.size comes)
  have saves := Machine.perform_storeWidth rsqrt has (h.grounded comes) rfl id
  have run : m.perform rsqrt ⟨(spillWidth c).store, id, .globalAt o, []⟩ = _ := saves
  have inside : o + 4 * (spillWidth c).words ≤ L :=
    Nat.le_trans backs (Nat.le_trans conduct.leads.ok.layout.globalTop starts.suits.globals)
  refine ⟨_, by rw [Machine.Track.run_instruction, run], stable m _ o (m.contentBytes id (spillWidth c)).length above ?_
    (Machine.touches_of_store rfl ?_) holds⟩
  · rwa [Machine.length_contentBytes]
  rw [Machine.length_contentBytes]
  exact has.spans rfl

/-- **A lease ends**, with the code that loads a borrowed register again. -/
theorem release_outcome {x : Lease} (location : x.location = c.location id)
    (saved : ∀ slot, x.spill = some slot → ∃ o, slot = .globalMemory o) :
    Results (release x) s fun _ t => (x.spill = none ∧ t = released s x) ∨
      ∃ o text, x.spill = some (.globalMemory o) ∧
        t = released (wrote s ⟨(spillWidth c).load, id, .globalAt o, []⟩ text) x := by
  unfold release
  dsimp only
  split
  · next slot spill =>
    obtain ⟨o, rfl⟩ := saved slot spill
    have class_ : (x.location.registerOf?.map Prod.fst).getD .simd = c := by
      rw [location, RegisterClass.registerOf?_location]
      rfl
    rw [class_]
    obtain ⟨text, run⟩ := emit_eq (s := s) (spillWidth c).load (location ▸ Regime.registerField_location c id)
      (rfl : operandOf (.globalMemory o) = .ok (.globalAt o)) []
    refine .bind (.intro run rfl : Results _ _ fun _ t => t = _) ?_
    rintro _ _ rfl
    exact .intro rfl (.inr ⟨o, text, spill, rfl⟩)
  · next none => exact .intro rfl (.inl ⟨none, rfl⟩)

/-- **A lease ends**, which touches its register. -/
theorem release_produces (h : Produces P s₁ s registers held rsqrt L m₀ F) {x : Lease} (hx : x ∈ held)
    (location : x.location = c.location id)
    (step : ∀ m m', P.Comes s rsqrt L m₀ m → m.Touches L (c.location id) 0 m' → F m → G m') :
    Results (release x) s fun _ t => Produces P s₁ t registers (held.erase x) rsqrt L m₀ G := by
  have pool : id ∈ c.pool := by
    obtain ⟨d, j, pool, same, -⟩ := h.leads.ok.layout.leased _ (h.leads.layout.mem_leased hx)
    obtain ⟨rfl, rfl⟩ := RegisterClass.location_inj (location.symm.trans same)
    exact pool
  refine ((release_conducts h.toConduct hx).and (release_outcome location (h.leads.layout.saved x hx))).mono ?_
  rintro _ t ⟨conduct, ⟨-, rfl⟩ | ⟨o, text, spill, rfl⟩⟩
  · refine h.extend conduct (follows_release x rfl rfl) [.released x] rfl
      (show _ = _ ++ [] from (List.append_nil _).symm) fun m comes _ _ holds => ⟨m, rfl, step m m comes (.refl m L _ 0) holds⟩
  · refine h.extend conduct (follows_release x rfl rfl)
      [.released x, .emitted ⟨(spillWidth c).load, id, .globalAt o, []⟩ s.layout] rfl rfl fun m comes _ _ holds => ?_
    obtain ⟨-, -, stop, -⟩ := h.spills _ (h.slots x hx c id o location spill)
    have backs : s.Backs (4 * (spillWidth c).words) (.globalMemory o) := by
      rw [spillWidth_words]
      exact stop
    have has := comes.starts.suits.has h.leads.ok backs (by cases c <;> decide) (h.size comes)
    obtain ⟨m', run, -⟩ := Machine.perform_loadWidth rsqrt (spillWidth c) has (h.grounded comes)
      (fun d j same => by cases d <;> cases same) id
    have run : m.perform rsqrt ⟨(spillWidth c).load, id, .globalAt o, []⟩ = .ok m' := run
    refine ⟨m', by rw [Machine.Track.run_instruction, run], step m m' comes ?_ holds⟩
    have written : (spillWidth c).load.written? = some c := by cases c <;> rfl
    exact Machine.touches_of_written written (by cases c <;> rfl) (Regime.pool_lt pool) run

/-- The lease that was granted last ends. -/
theorem release_last_produces {x : Lease} (h : Produces P s₁ s registers (held ++ [x]) rsqrt L m₀ F)
    (location : x.location = c.location id)
    (step : ∀ m m', P.Comes s rsqrt L m₀ m → m.Touches L (c.location id) 0 m' → F m → G m') :
    Results (release x) s fun _ t => Produces P s₁ t registers held rsqrt L m₀ G := by
  have last : (held ++ [x]).erase x = held := erase_last h.leads
  have := release_produces h (List.mem_append_right _ (List.mem_singleton_self x)) location step
  rwa [last] at this

/-- **SSE registers are leased**, no two of them the same. -/
theorem acquireSimd_produces (count : Nat) : ∀ {s : LoweringState} {held : List Lease},
    Produces P s₁ s registers held rsqrt L m₀ (fun _ => True) → ∀ avoid : List Location,
    Results (acquireSimd count avoid) s fun xs t => Produces P s₁ t registers (held ++ xs) rsqrt L m₀ (fun _ => True) ∧
      ∃ ids : List Nat, xs.map Lease.location = ids.map Location.simdRegister ∧ ids.length = count ∧ ids.Nodup ∧
        ∀ id ∈ ids, id ∈ RegisterClass.simd.pool ∧ ∀ a ∈ avoid, a.registerOf? ≠ some (.simd, id) := by
  induction count with
  | zero =>
    intro s held h avoid
    exact .pure ⟨by simpa using h, [], rfl, rfl, .nil, by simp⟩
  | succ count ih =>
    intro s held h avoid
    unfold acquireSimd
    refine (acquire_produces h .simd avoid fun _ _ _ _ _ _ _ _ => trivial).bind ?_
    rintro x t ⟨h₁, id, grants⟩
    have location : x.location = .simdRegister id := grants.location
    refine (ih h₁ _).bind ?_
    rintro xs u ⟨h₂, ids, same, length, nodup, clear⟩
    rw [List.append_assoc, List.singleton_append] at h₂
    refine .pure ⟨h₂, id :: ids, by rw [List.map_cons, List.map_cons, same, location], congrArg Nat.succ length,
      List.nodup_cons.2 ⟨fun again => ?_, nodup⟩, fun j hj => ?_⟩
    · refine (clear id again).2 x.location (List.mem_append_right _ (List.mem_singleton_self _)) ?_
      rw [location]
      rfl
    · rcases List.mem_cons.1 hj with rfl | hj
      · exact ⟨grants.pool, fun a ha taken => grants.clear (mem_registersOf.2 ⟨a, ha, taken⟩)⟩
      · exact ⟨(clear j hj).1, fun a ha => (clear j hj).2 a (List.mem_append_left _ ha)⟩

/-- **Leases of SSE registers end** in the reverse of the order in which they
started, which touches nothing but the registers. -/
theorem releaseAll_produces (xs : List Lease) (ids : List Nat) (h : Produces P s₁ s registers (held ++ xs) rsqrt L m₀ F)
    (same : xs.map Lease.location = ids.map Location.simdRegister)
    (step : ∀ id ∈ ids, ∀ m m' : Machine, m.Touches L (.simdRegister id) 0 m' → F m → F m') :
    Results (releaseAll xs.reverse) s fun _ t => Produces P s₁ t registers held rsqrt L m₀ F := by
  induction xs using List.reverseRecOn generalizing s ids with
  | nil =>
    rw [List.append_nil] at h
    exact .pure h
  | append_singleton xs x ih =>
    rw [List.reverse_append, List.reverse_singleton, List.singleton_append, releaseAll]
    rw [← List.append_assoc] at h
    rw [List.map_append, List.map_singleton] at same
    obtain ⟨front, back, rfl, first, last⟩ := List.append_eq_map_iff.1 same
    obtain ⟨id, rfl, location⟩ : ∃ id, back = [id] ∧ Location.simdRegister id = x.location := by
      obtain ⟨id, rest, rfl, eq, none⟩ := List.map_eq_cons_iff.1 last
      rw [List.map_eq_nil_iff] at none
      exact ⟨id, by rw [none], eq⟩
    refine (release_last_produces (c := .simd) h location.symm fun m m' _ touches holds =>
      step id (List.mem_append_right _ (List.mem_singleton_self _)) m m' touches holds).bind fun _ t h' => ?_
    exact ih front h' first.symm fun j hj => step j (List.mem_append_left _ hj)

/-! ## Repetition -/

/-- **An action for each of some values**, with what holds after so many. -/
theorem forM_produces {α : Type} {action : α → Lower Unit} (xs : List α) (F : Nat → Machine → Prop)
    (h : Produces P s₁ s registers held rsqrt L m₀ (F 0))
    (each : ∀ k (small : k < xs.length) t, Produces P s₁ t registers held rsqrt L m₀ (F k) →
      Results (action xs[k]) t fun _ u => Produces P s₁ u registers held rsqrt L m₀ (F (k + 1))) :
    Results (xs.forM action) s fun _ t => Produces P s₁ t registers held rsqrt L m₀ (F xs.length) := by
  induction xs generalizing s F with
  | nil => exact .pure h
  | cons x xs ih =>
    refine (each 0 (Nat.zero_lt_succ _) s h).bind fun _ t h' => ?_
    exact ih (fun k => F (k + 1)) h' fun k small t => each (k + 1) (Nat.succ_lt_succ small) t

theorem forRows_produces {action : Nat → Lower Unit} (rows : Nat) (F : Nat → Machine → Prop)
    (h : Produces P s₁ s registers held rsqrt L m₀ (F 0))
    (each : ∀ row < rows, ∀ t, Produces P s₁ t registers held rsqrt L m₀ (F row) →
      Results (action row) t fun _ u => Produces P s₁ u registers held rsqrt L m₀ (F (row + 1))) :
    Results (forRows rows action) s fun _ t => Produces P s₁ t registers held rsqrt L m₀ (F rows) := by
  have all : Results ((List.range rows).forM action) s fun _ t =>
      Produces P s₁ t registers held rsqrt L m₀ (F (List.range rows).length) :=
    forM_produces _ F h fun k small t h' => by
      rw [List.length_range] at small
      rw [List.getElem_range]
      exact each k small t h'
  rwa [List.length_range] at all

/-! ## Places -/

/-- **A temporary is placed.** -/
theorem place_produces (h : Produces P s₁ s registers held rsqrt L m₀ F) (ty : Ty) :
    Results (place ty) s fun out t => Produces P s₁ t (registers ++ out.own) held rsqrt L m₀ F ∧ Places s t ty out := by
  intro out t run
  obtain ⟨storage, -, assembly, transcript⟩ := place_rests h.leads.ok ty out t run
  obtain ⟨leads, -⟩ := (place_ends (E := fun _ => True) (.refl h.leads.ok) storage).of_ok run
  obtain ⟨conduct, places⟩ := place_conducts h.toConduct ty out t run
  exact ⟨h.rest conduct leads.follows [.placed _ ty out] transcript assembly, places⟩

/-! ## Whole values -/

theorem load_keepsFlags (w : Width) : w.load.keepsFlags = true := by cases w <;> rfl

/-- **A value is moved into a register**, or it is there already. -/
theorem load_produces (h : Produces P s₁ s registers held rsqrt L m₀ F) (w : Width) (owns : P.Owns held w.registerClass id)
    {src : Location} (reads : P.Reads src) (fits : ∀ d j, src = RegisterClass.location d j → d = w.registerClass)
    (has : ∀ m, P.Comes s rsqrt L m₀ m → F m → m.Has L (4 * w.words) src)
    (step : ∀ m m', P.Comes s rsqrt L m₀ m → F m → m.Touches L (w.registerClass.location id) 0 m' →
      (∀ k < w.words, m'.part L (w.registerClass.location id) k = m.part L src k) → G m') :
    Results (transfer w (w.registerClass.location id) src) s fun _ t => Produces P s₁ t registers held rsqrt L m₀ G := by
  unfold transfer
  split
  · next same =>
    exact .pure (h.mono fun m comes holds => step m m comes holds (.refl m L _ 0) fun k _ => by rw [← same])
  rw [if_pos (RegisterClass.isRegister_location _ id)]
  refine emit_produces h (load_written w) (load_keepsFlags w) owns reads [] fun m comes _ holds => ?_
  obtain ⟨m', run, loaded⟩ := Machine.perform_loadWidth rsqrt w (has m comes holds) (h.grounded comes) fits id
  exact ⟨m', run, fun touches => step m m' comes holds touches loaded⟩

theorem emitStore_outcome (o : Opcode) (l : Location) (c : RegisterClass) (id : Nat) (s : LoweringState) :
    Results (emitStore o l (c.location id)) s fun _ t => operandOf l = .ok l.operand ∧
      ∃ text, t = wrote s ⟨o, id, l.operand, []⟩ text := by
  intro _ t run
  cases operand : operandOf l with
  | error e =>
    unfold emitStore at run
    rw [Regime.registerField_location, operand] at run
    cases run
  | ok p =>
    obtain ⟨text, eq⟩ := emitStore_eq (s := s) o operand (Regime.registerField_location c id)
    rw [eq] at run
    cases run
    obtain rfl := operandOf_eq operand
    exact ⟨rfl, text, rfl⟩

/-- **A value in a register is moved to its place.** -/
theorem deliver_produces (h : Produces P s₁ s registers held rsqrt L m₀ F) (w : Width) (id : Nat) {out : Location}
    (admits : P.Admits s₁ held out w.registerClass (4 * w.words))
    (has : ∀ m, P.Comes s rsqrt L m₀ m → F m → m.Has L (4 * w.words) out)
    (step : ∀ m m', P.Comes s rsqrt L m₀ m → F m → m.Touches L out (4 * w.words) m' →
      (∀ k < w.words, m'.part L out k = m.part L (w.registerClass.location id) k) → G m') :
    Results (transfer w out (w.registerClass.location id)) s fun _ t => Produces P s₁ t registers held rsqrt L m₀ G := by
  by_cases whole : out.isRegister = true
  · obtain ⟨j, rfl, owns⟩ := admits.register whole
    refine load_produces h w owns (P.reads_location _ id) (fun d j same => ?_) (fun m _ _ => Machine.has_location _ id)
      fun m m' comes holds touches moved => step m m' comes holds ?_ moved
    · exact (RegisterClass.location_inj same).1.symm
    · exact { touches with bytes := fun k _ => touches.bytes k fun taken => by cases w <;> exact taken }
  have other : out ≠ w.registerClass.location id := by
    rintro rfl
    exact whole (RegisterClass.isRegister_location _ id)
  have run : transfer w out (w.registerClass.location id) = emitStore w.store out (w.registerClass.location id) := by
    rw [transfer, if_neg other, if_neg whole, if_pos (RegisterClass.isRegister_location _ id)]
  rw [run]
  refine ((emitStore_conducts h.toConduct (w.registerClass.location id) (store_stored w) admits).and
    (emitStore_outcome w.store out w.registerClass id s)).mono ?_
  rintro _ _ ⟨conduct, operand, text, rfl⟩
  have memory : out.isInMemory = true := by
    cases out <;> first | rfl | exact absurd rfl whole | cases operand
  refine h.wrote conduct fun m comes _ holds => ?_
  have has := has m comes holds
  refine ⟨_, Machine.perform_storeWidth rsqrt has (h.grounded comes) memory id, step m _ comes holds ?_ fun k small =>
    Machine.part_stored memory id small⟩
  have spans := has.spans memory
  rw [← Machine.length_contentBytes m id w] at spans ⊢
  exact Machine.touches_of_store memory spans

/-- **The register that a result is computed in**: that of the result, or a
leased one. -/
theorem accumulator_produces (h : Produces P s₁ s registers held rsqrt L m₀ F) {out : Location} (avoid : List Location)
    (own : out.isRegister = true → P.Own held c out)
    (stable : ∀ m m' o n, s.globalTop ≤ o → o + n ≤ L → m.Touches L (.globalMemory o) n m' → F m → F m') :
    Results (accumulator out c avoid) s fun r t => Produces P s₁ t registers (held ++ r.2.toList) rsqrt L m₀ F ∧
      ∃ id, r.1 = c.location id ∧ P.Owns (held ++ r.2.toList) c id ∧
        (r.2 = none ∧ out = c.location id ∨ ∃ x, r.2 = some x ∧ s.layout.Grants t.layout c avoid x id) := by
  unfold accumulator
  split
  · next whole =>
    simp only [Bool.and_eq_true] at whole
    obtain ⟨id, rfl, owns⟩ := own whole.1
    refine .pure ⟨by simpa using h, id, rfl, by simpa using owns, .inl ⟨rfl, rfl⟩⟩
  · refine (acquire_produces h c avoid stable).bind ?_
    rintro x t ⟨h₁, id, grants⟩
    exact .pure ⟨h₁, id, grants.location, ⟨grants.pool, .inl ⟨x, by simp, grants.location⟩⟩, .inr ⟨x, rfl, grants⟩⟩

/-- **A result is moved from a register to its place**, which gives up the
register. If they are not the same, both are touched. -/
theorem settle_produces {lease : Option Lease} {acc out : Location} {w : Width}
    (h : Produces P s₁ s registers (held ++ lease.toList) rsqrt L m₀ F) (at_ : acc = w.registerClass.location id)
    (which : (lease = none ∧ out = w.registerClass.location id) ∨
      ∃ x, lease = some x ∧ x.location = w.registerClass.location id ∧ x.location ≠ out)
    (admits : P.Admits s₁ held out w.registerClass (4 * w.words))
    (has : ∀ m, P.Comes s rsqrt L m₀ m → F m → m.Has L (4 * w.words) out)
    (behind : ∀ j, out = .indirectRegister j → w.registerClass.location id ≠ .register j)
    (small : ∀ d j, out = RegisterClass.location d j ∨ out = .indirectRegister j → j < 8)
    (step : ∀ m m', F m → (m' = m ∨ ∃ m₁, m.Touches L out (4 * w.words) m₁ ∧
        m₁.Touches L (w.registerClass.location id) 0 m') →
      (∀ k < w.words, m'.part L out k = m.part L (w.registerClass.location id) k) → G m') :
    Results (settle out acc lease w) s fun _ t => Produces P s₁ t registers held rsqrt L m₀ G := by
  rcases which with ⟨rfl, rfl⟩ | ⟨x, rfl, location, other⟩
  · rw [Option.toList_none, List.append_nil] at h
    exact .pure (h.mono fun m _ holds => step m m holds (.inl rfl) fun k _ => rfl)
  · rw [Option.toList_some] at h
    unfold settle
    rw [at_]
    refine (deliver_produces (G := fun m' => ∃ m, F m ∧ m.Touches L out (4 * w.words) m' ∧ ∀ k < w.words,
      m'.part L out k = m.part L (w.registerClass.location id) k) h w id (admits.mono (List.subset_append_left _ _)) has
        fun m m' _ holds touches moved => ⟨m, holds, touches, moved⟩).bind fun _ t h₁ => ?_
    refine release_last_produces h₁ location fun m' m'' _ touches moved => ?_
    obtain ⟨m, holds, delivered, moved⟩ := moved
    refine step m m'' holds (.inr ⟨m', delivered, touches⟩) fun k word => ?_
    rw [touches.part (location ▸ other) behind small, moved k word]

/-! ## Numbers -/

end Lower

/-- **The number that a value is as a float**, converted if it has to be. -/
def Machine.number (m : Machine) (L : Nat) (v : Value) : Word :=
  if v.ty = .int then Binary32.ofInt (m.part L v.location 0) else m.part L v.location 0

namespace Lower

variable {P : Permit} {s₁ s t : LoweringState} {registers : List Location} {held : List Lease}
  {rsqrt : Word → Word} {L : Nat} {m₀ : Machine} {F G : Machine → Prop} {id : Nat} {v : Value}

/-- **A word that is an operand** is read as it was, where nothing may be
written. -/
theorem word_still {ok : s.Ok} (h : Conduct (Permit.still s ok) s₁ t registers held) {m : Machine}
    (comes : (Permit.still s ok).Comes t rsqrt L m₀ m) (supplies : s.Supplies L m₀ v.ty v.location) (size : v.ty.size = 4)
    (notHeld : ∀ x ∈ held, x.location ≠ v.location) :
    m.Has L 4 v.location ∧ m.part L v.location 0 = m₀.part L v.location 0 ∧ m.number L v = m₀.number L v := by
  have withheld := supplies.still h comes
  rw [size] at withheld
  have same : m.part L v.location 0 = m₀.part L v.location 0 := h.part comes withheld notHeld (by decide) (by decide)
  exact ⟨h.has comes withheld, same, by rw [Machine.number, Machine.number, same]⟩

/-- **An integer is converted into a register.** -/
theorem convert_produces (h : Produces P s₁ s registers held rsqrt L m₀ F) (owns : P.Owns held .simd id) {l : Location}
    (reads : P.Reads l) (integral : ∀ j, l ≠ .simdRegister j) (has : ∀ m, P.Comes s rsqrt L m₀ m → F m → m.Has L 4 l)
    (step : ∀ m m', P.Comes s rsqrt L m₀ m → F m → m.Touches L (.simdRegister id) 0 m' →
      (m'.simd id).x = Binary32.ofInt (m.part L l 0) → G m') :
    Results (emit .cvtsi2ss (.simdRegister id) l) s fun _ t => Produces P s₁ t registers held rsqrt L m₀ G := by
  refine emit_produces (c := .simd) h rfl rfl owns reads [] fun m comes _ holds => ?_
  refine ⟨_, Machine.perform_convert (has m comes holds) (h.grounded comes) integral id, fun touches =>
    step m _ comes holds touches ?_⟩
  rw [Machine.setScalar, Machine.simd_set, if_pos rfl]

/-- **A number is stored as a float in a register.** -/
theorem storeFloat_produces (h : Produces P s₁ s registers held rsqrt L m₀ F) (owns : P.Owns held .simd id)
    (number : v.ty = .int ∨ v.ty = .float) (reads : P.Reads v.location)
    (fits : ∀ d j, v.location = RegisterClass.location d j → d = (Width.ofTy v.ty).registerClass)
    (has : ∀ m, P.Comes s rsqrt L m₀ m → F m → m.Has L 4 v.location)
    (step : ∀ m m', P.Comes s rsqrt L m₀ m → F m → m.Touches L (.simdRegister id) 0 m' →
      (m'.simd id).x = m.number L v → G m') :
    Results (storeWhole (.simdRegister id) .float v) s fun _ t => Produces P s₁ t registers held rsqrt L m₀ G := by
  unfold storeWhole
  rcases number with int | float
  · have acc : accumulator (.simdRegister id) .simd [.simdRegister id, v.location] = pure (.simdRegister id, none) := rfl
    rw [int]
    dsimp only
    rw [acc, pure_bind]
    have integral (j : Nat) (same : v.location = .simdRegister j) : False := by
      have := fits .simd j same
      rw [int] at this
      cases this
    refine (convert_produces h owns reads integral has fun m m' comes holds touches converted => ?_).bind
      fun _ t h' => .pure h'
    refine step m m' comes holds touches ?_
    rw [Machine.number, if_pos int, converted]
  · rw [float]
    dsimp only
    rw [if_neg (by decide)]
    refine load_produces (w := .single) h owns reads (fun d j same => ?_) has fun m m' comes holds touches loaded => ?_
    · rw [fits d j same, float]
      rfl
    · refine step m m' comes holds touches ?_
      rw [Machine.number, if_neg (by rw [float]; decide)]
      exact loaded 0 (by decide)

/-! ## Packed operations -/

/-- **A packed operation on a register**, told by its lanes. -/
theorem lanes_produces (h : Produces P s₁ s registers held rsqrt L m₀ F) {o : Opcode} {f : Lanes → Lanes → Lanes}
    (computes : o.lanes? = some f) (owns : P.Owns held .simd id) {l : Location} (reads : P.Reads l)
    (float : ∀ j, l ≠ .register j)
    (has : ∀ m, P.Comes s rsqrt L m₀ m → F m → m.Has L 16 l ∧ m.Straight16 L l)
    (step : ∀ m m', P.Comes s rsqrt L m₀ m → s.Pools m₀ → F m → m.Touches L (.simdRegister id) 0 m' →
      m'.simd id = f (m.simd id) (m.lanesAt L l) → G m') :
    Results (emit o (.simdRegister id) l) s fun _ t => Produces P s₁ t registers held rsqrt L m₀ G := by
  have written : o.written? = some .simd := by cases o <;> cases computes <;> rfl
  have keeps : o.keepsFlags = true := by cases o <;> cases computes <;> rfl
  refine emit_produces (c := .simd) h written keeps owns reads [] fun m comes pools holds => ?_
  obtain ⟨has, aligned⟩ := has m comes holds
  refine ⟨_, Machine.perform_lanes computes has (h.grounded comes) float aligned id, fun touches =>
    step m _ comes pools holds touches ?_⟩
  rw [Machine.simd_set, if_pos rfl]

/-- Registers are operands of packed operations. -/
theorem has_simd (m : Machine) (L j : Nat) : m.Has L 16 (.simdRegister j) ∧ m.Straight16 L (.simdRegister j) :=
  ⟨Machine.has_location .simd j, by rintro ⟨⟩⟩

/-- **A register is masked** with a pooled constant. -/
theorem mask_produces (h : Produces P s₁ s registers held rsqrt L m₀ F)
    (quiet : ∀ l n k, P.memory l n → m₀.takes L l n k → L ≤ k) (aligned : m₀.base % 16 = 0) (owns : P.Owns held .simd id) {mask : Lanes} {o : Nat}
    (hc : (.vector mask, o) ∈ s.constants.slots)
    (step : ∀ m m', P.Comes s rsqrt L m₀ m → F m → m.Touches L (.simdRegister id) 0 m' →
      m'.simd id = Lanes.map2 (· &&& ·) (m.simd id) mask → G m') :
    Results (emit .andps (.simdRegister id) (.globalMemory o)) s fun _ t => Produces P s₁ t registers held rsqrt L m₀ G := by
  refine lanes_produces h (o := .andps) rfl owns (P.reads_global o) (by rintro _ ⟨⟩)
    (fun m comes _ => ⟨h.pooledHas comes hc, h.pooledStraight comes aligned hc⟩)
    fun m m' comes pools holds touches computed => step m m' comes holds touches ?_
  rw [computed, h.pooledLanes quiet comes pools hc]

/-- **A register is changed in place.** -/
theorem shift_produces (h : Produces P s₁ s registers held rsqrt L m₀ F) {o : Opcode} {immediate : List UInt8}
    {f : Lanes → Lanes} (shifts : o = .pslldq ∨ o = .psrldq)
    (computes : ∀ m : Machine, m.perform rsqrt ⟨o, 0, .register id, immediate⟩ = .ok (m.setSimd id (f (m.simd id))))
    (owns : P.Owns held .simd id)
    (step : ∀ m m', P.Comes s rsqrt L m₀ m → F m → m.Touches L (.simdRegister id) 0 m' →
      m'.simd id = f (m.simd id) → G m') :
    Results (emitUnary o (.simdRegister id) immediate) s fun _ t => Produces P s₁ t registers held rsqrt L m₀ G := by
  have inPlace : o.inPlace? = some .simd := by rcases shifts with rfl | rfl <;> rfl
  refine unary_computes (c := .simd) h inPlace owns immediate fun m comes _ holds => ⟨_, computes m, step m _ comes holds ?_ ?_⟩
  · refine ⟨rfl, rfl, rfl, fun j _ _ => rfl, fun j small other => ?_, fun _ _ => rfl⟩
    have := Regime.pool_lt owns.1
    rw [Machine.simd_set, if_neg fun index => other (congrArg _ (by omega))]
  · rw [Machine.simd_set, if_pos rfl]

end Lower

end Shading
