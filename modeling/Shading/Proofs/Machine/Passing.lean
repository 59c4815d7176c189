import Shading.Proofs.Discipline.Pairs
import Shading.Proofs.Machine.Forward
import Shading.Proofs.Machine.Track

/-!
# Runs over code and machines that carry it out

A run over some code passes each entry in turn, those that a jump leads over
too (`Track.run`, `Pair.run`). A machine goes from an entry straight to the
next one that it reads. Between the two stand the marks behind the first, and
all that its jump leads over if it is one that is taken
(`CodeEntry.PassesOver`). So a run keeps up with a machine, step by step.
-/

namespace Shading

/-- **What is passed over** behind an entry that has been carried out: marks,
and up to its own mark anything, if it is a jump that is taken. -/
inductive CodeEntry.PassesOver (flags : Flags) : CodeEntry → List CodeEntry → Prop where
  | marks {e : CodeEntry} {marks : List CodeEntry}
      (stays : ∀ form l d, e = .jump form l d → form.taken flags = false)
      (all : ∀ x ∈ marks, ∃ l, x = .mark l) : PassesOver flags e marks
  | jump {form : JumpForm} {label : Nat} {distance : Int} {front marks : List CodeEntry}
      (taken : form.taken flags = true) (first : .mark label ∉ front) (all : ∀ x ∈ marks, ∃ l, x = .mark l) :
      PassesOver flags (.jump form label distance) (front ++ .mark label :: marks)

/-- **Each label is marked once.** -/
def Assembly.MarksOnce (es : List CodeEntry) : Prop :=
  ∀ (i j l : Nat), es[i]? = some (.mark l) → es[j]? = some (.mark l) → i = j

namespace Assembly

variable {es : List CodeEntry} {i j k : Nat}

/-- Between two entries that start at one place there are marks. -/
theorem mark_of_startOf_eq (readable : ∀ e ∈ es, e.Readable) (same : startOf es i = startOf es j) (above : i ≤ k)
    (below : k < j) {e : CodeEntry} (here : es[k]? = some e) : ∃ l, e = .mark l := by
  have next := startOf_of_getElem? here
  have low : startOf es i ≤ startOf es k := startOf_mono above
  have high : startOf es (k + 1) ≤ startOf es j := startOf_mono below
  rcases Decoded.mark_or_decoded (readable e (List.mem_of_getElem? here)) 0 with mark | ⟨d, some⟩
  · exact mark
  · have bytes := Decoded.size_pos some
    omega

/-- The entries from one place to another. -/
theorem exists_between {e : CodeEntry} (here : es[k]? = some e) (later : k < j) :
    ∃ passed, es.take j = es.take k ++ e :: passed ∧
      ∀ x ∈ passed, ∃ n, k < n ∧ n < j ∧ es[n]? = some x := by
  refine ⟨(es.take j).drop (k + 1), ?_, fun x hx => ?_⟩
  · have there : (es.take j)[k]? = some e := (List.getElem?_take_of_lt later).trans here
    have front : (es.take j).take k = es.take k := by rw [List.take_take, Nat.min_eq_left (Nat.le_of_lt later)]
    obtain ⟨inside, eq⟩ := List.getElem?_eq_some_iff.1 there
    rw [← front, ← eq, ← List.drop_eq_getElem_cons inside, List.take_append_drop]
  · obtain ⟨n, hn⟩ := List.getElem?_of_mem hx
    rw [List.getElem?_drop] at hn
    obtain ⟨inside, -⟩ := List.getElem?_eq_some_iff.1 hn
    rw [List.length_take] at inside
    have small : k + 1 + n < j := Nat.lt_of_lt_of_le inside (Nat.min_le_left _ _)
    exact ⟨k + 1 + n, by omega, small, (List.getElem?_take_of_lt small).symm.trans hn⟩

end Assembly

namespace Machine

variable {m m' : Machine} {rsqrt : Word → Word} {start k j : Nat} {es : List CodeEntry} {e : CodeEntry}

/-- Where a machine has moved, by the place it stands at. -/
theorem Moves.ip_of_step {n : Nat} {m₁ : Machine} (moves : m.Moves rsqrt start es k e m' j)
    (step : m.step rsqrt = .ok (.running (m₁.standing (start + Assembly.startOf es n)))) :
    Assembly.startOf es n = Assembly.startOf es j := by
  have same := congrArg Machine.ip (Progress.running.inj (Except.ok.inj (step.symm.trans moves.step)))
  exact Nat.add_left_cancel same

/-- **What a machine passes over** where it moves on. -/
theorem Moves.passes (moves : m.Moves rsqrt start es k e m' j) (forward : Assembly.Forward es)
    (reaching : Assembly.Reaching start es) (once : Assembly.MarksOnce es) (at_ : m.At start es k e) :
    ∃ passed, es.take j = es.take k ++ e :: passed ∧ e.PassesOver m.registers.flags passed := by
  have here := at_.here
  have readable := forward.readable e (List.mem_of_getElem? here)
  have holds := at_.holds.entry here
  rw [← at_.ip] at holds
  have next := Assembly.startOf_of_getElem? here
  -- What follows an entry without a jump are the marks up to the next one that is read.
  have on (stays : ∀ form l d, e = .jump form l d → form.taken m.registers.flags = false) {m₁ : Machine}
      (step : m.step rsqrt = .ok (.running (m₁.standing (start + Assembly.startOf es (k + 1))))) :
      ∃ passed, es.take j = es.take k ++ e :: passed ∧ e.PassesOver m.registers.flags passed := by
    obtain ⟨passed, eq, all⟩ := Assembly.exists_between here moves.later
    refine ⟨passed, eq, .marks stays fun x hx => ?_⟩
    obtain ⟨n, above, below, there⟩ := all x hx
    exact Assembly.mark_of_startOf_eq forward.readable (moves.ip_of_step step) above below there
  cases e with
  | instruction i text =>
    have step : m.step rsqrt = _ := at_.step_instruction readable reaching
    cases run : m.perform rsqrt i with
    | error f =>
      have running := moves.step
      rw [step, run] at running
      cases running
    | ok m₁ =>
      rw [run] at step
      exact on nofun step
  | cdq =>
    refine @on nofun m.extendSign ?_
    rw [step_cdq rfl holds, next, ← Nat.add_assoc, ← at_.ip]
    rfl
  | jump form label distance =>
    have step : m.step rsqrt = _ := step_jump holds readable
    by_cases taken : form.taken m.registers.flags = true
    · obtain ⟨n, ahead, mark, distance_eq⟩ := forward.jumps k form label distance here
      have target : ((m.ip + (CodeEntry.jump form label distance).size : Nat) : Int) + distance =
          (start + Assembly.startOf es n : Nat) := by
        rw [at_.ip, Nat.add_assoc, ← next]
        omega
      rw [if_pos taken, goto] at step
      simp only [target] at step
      rw [if_pos (Int.natCast_nonneg _)] at step
      have same : Assembly.startOf es n = Assembly.startOf es j := Moves.ip_of_step moves step
      -- The machine stands behind the mark, since what it stands at has bytes.
      have behind : n < j := by
        obtain ⟨e', there, plain⟩ := moves.there
        by_contra before
        have apart : j ≠ n := by
          rintro rfl
          rw [mark] at there
          exact plain label (Option.some.inj there).symm
        obtain ⟨l, eq⟩ := Assembly.mark_of_startOf_eq forward.readable same.symm (Nat.le_refl j)
          (Nat.lt_of_le_of_ne (Nat.not_lt.1 before) apart) there
        exact plain l eq
      obtain ⟨front, eq, before⟩ := Assembly.exists_between here ahead
      obtain ⟨marks, eq', after⟩ := Assembly.exists_between mark behind
      refine ⟨front ++ .mark label :: marks, ?_, .jump taken (fun mem => ?_) fun x hx => ?_⟩
      · rw [eq', eq, List.append_assoc, List.cons_append]
      · obtain ⟨i, above, below, there⟩ := before _ mem
        exact Nat.ne_of_lt below (once i n label there mark)
      · obtain ⟨i, above, below, there⟩ := after x hx
        exact Assembly.mark_of_startOf_eq forward.readable same (Nat.le_of_lt above) below there
    · refine @on (fun form' l d eq => ?_) m ?_
      · cases eq
        exact Bool.eq_false_iff.2 taken
      · rw [step, if_neg taken, next, ← Nat.add_assoc, ← at_.ip]
  | ret => cases moves.effect
  | mark l => exact absurd rfl (at_.unmarked l)
  | raw bytes text => exact readable.elim
  | call target => exact readable.elim

/-- An entry does the same wherever the machine stands. -/
theorem Effect.standing (p : Nat) (h : m.Effect rsqrt e m') : (m.standing p).Effect rsqrt e (m'.standing p) := by
  cases h with
  | instruction run => exact .instruction (perform_standing p run)
  | cdq => exact .cdq
  | jump => exact .jump

end Machine

/-! ## Runs over code -/

namespace Machine.Track

variable {rsqrt : Word → Word} {m m' : Machine} {start k j : Nat} {es : List CodeEntry} {e : CodeEntry}

/-- Marks are passed over. -/
theorem run_marks (all : ∀ x ∈ es, ∃ l, x = .mark l) : run rsqrt (.running m) es = .running m := by
  induction es with
  | nil => rfl
  | cons e es ih =>
    obtain ⟨l, rfl⟩ := all _ List.mem_cons_self
    exact ih fun y hy => all y (List.mem_cons_of_mem _ hy)

/-- **A run keeps up with a machine** that moves on. -/
theorem run_effect (effect : m.Effect rsqrt e m') (passes : e.PassesOver m.registers.flags es) :
    run rsqrt (.running m) (e :: es) = .running m' := by
  rw [run, List.foldl_cons]
  cases passes with
  | marks stays all =>
    have here : step rsqrt (.running m) e = .running m' := by
      cases effect with
      | instruction performs => simp only [step, performs]
      | cdq => rfl
      | jump => exact if_neg (by rw [stays _ _ _ rfl]; exact Bool.false_ne_true)
    rw [here]
    exact run_marks all
  | @jump form label distance front marks taken first all =>
    cases effect
    have jumps : step rsqrt (.running m) (.jump form label distance) = .seeking label m := if_pos taken
    have arrives : step rsqrt (.seeking label m) (.mark label) = .running m := if_pos rfl
    rw [jumps, List.foldl_append]
    change List.foldl _ (run rsqrt _ front) _ = _
    rw [run_seeking first, List.foldl_cons, arrives]
    exact run_marks all

/-- **A step of a machine** is a run over what it passes. -/
theorem run_moves (moves : m.Moves rsqrt start es k e m' j) (forward : Assembly.Forward es)
    (reaching : Assembly.Reaching start es) (once : Assembly.MarksOnce es) (at_ : m.At start es k e) (p : Nat) :
    run rsqrt (.running (m.standing p)) ((es.take j).drop k) = .running (m'.standing p) := by
  obtain ⟨passed, eq, passes⟩ := moves.passes forward reaching once at_
  have inside := (List.getElem?_eq_some_iff.1 at_.here).1
  have length : (es.take k).length = k := by rw [List.length_take, Nat.min_eq_left (Nat.le_of_lt inside)]
  rw [eq, List.drop_left' length]
  exact run_effect (moves.effect.standing p) passes

end Machine.Track

/-! ## Pairs of runs -/

namespace Pair

variable {R : Regime} {a b m m' : Machine} {es : List Indexed} {e : CodeEntry} {c : Option Slot}

/-- Marks are passed over. -/
theorem run_marks (all : ∀ x ∈ es, ∃ l, x.1 = .mark l) : run R (.running a b) es = .running a b := by
  induction es with
  | nil => rfl
  | cons x es ih =>
    obtain ⟨e, c⟩ := x
    obtain ⟨l, mark⟩ := all _ List.mem_cons_self
    obtain rfl : e = .mark l := mark
    exact ih fun y hy => all y (List.mem_cons_of_mem _ hy)

/-- What is no mark of a label is passed over while the label is sought. -/
theorem run_seeking {label : Nat} (first : CodeEntry.mark label ∉ es.map Prod.fst) :
    run R (.seeking label a b) es = .seeking label a b := by
  induction es with
  | nil => rfl
  | cons x es ih =>
    obtain ⟨e, c⟩ := x
    rw [List.map_cons, List.mem_cons, not_or] at first
    have stays : step R (.seeking label a b) (e, c) = .seeking label a b := by
      cases e with
      | mark l => exact if_neg fun same => first.1 (congrArg CodeEntry.mark same.symm)
      | _ => rfl
    rw [run, List.foldl_cons, stays]
    exact ih first.2

/-- **A pair of equal runs keeps up with a machine** that moves on. -/
theorem run_effect (effect : m.Effect R.rsqrt e m')
    (may : ∀ i text, e = .instruction i text → R.permits m i c = true ∧ m.isMisaligned i = false)
    (passes : e.PassesOver m.registers.flags (es.map Prod.fst)) :
    run R (.running m m) ((e, c) :: es) = .running m' m' := by
  rw [run, List.foldl_cons]
  generalize same : es.map Prod.fst = passed at passes
  cases passes with
  | marks stays all =>
    subst same
    have here : step R (.running m m) (e, c) = .running m' m' := by
      cases effect with
      | instruction performs =>
        obtain ⟨permits, aligned⟩ := may _ _ rfl
        simp only [step, perform, permits, aligned, Bool.and_false, performs, if_true, Bool.false_eq_true, if_false]
      | cdq => rfl
      | jump =>
        simp only [step, if_true]
        rw [stays _ _ _ rfl, if_neg Bool.false_ne_true]
    rw [here]
    exact run_marks fun x hx => all _ (List.mem_map_of_mem hx)
  | @jump form label distance front marks taken first all =>
    cases effect
    obtain ⟨front', rest, rfl, rfl, eq⟩ := List.map_eq_append_iff.1 same
    obtain ⟨mark, marks', rfl, here, rfl⟩ := List.map_eq_cons_iff.1 eq
    obtain ⟨e, c'⟩ := mark
    obtain rfl : e = .mark label := here
    have jumps : step R (.running m m) (.jump form label distance, c) = .seeking label m m := by
      simp only [step, if_true]
      exact if_pos taken
    have arrives : step R (.seeking label m m) (.mark label, c') = .running m m := if_pos rfl
    rw [jumps, List.foldl_append]
    change List.foldl _ (run R _ front') _ = _
    rw [run_seeking first, List.foldl_cons, arrives]
    exact run_marks fun x hx => all _ (List.mem_map_of_mem hx)

end Pair

end Shading
