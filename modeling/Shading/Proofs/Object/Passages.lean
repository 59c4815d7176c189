import Shading.Proofs.Machine.Passing
import Shading.Proofs.Object.Runs

/-!
# What a run of an object has carried out

What a piece of code does to a machine is said of a run over its entries
(`Machine.Track.run`), wherever they are going to stand. In an object the
machine reads bytes. A run of the object that comes to an entry of a function,
and later to another one, has carried out what stands between them
(`Program.passes_code`). So what is true of runs over the code of a helper, a
condition or an expression is true of the machine that executes the object.
-/

namespace Shading

open LoweringState Relation

namespace Machine

variable {m : Machine} {start i j : Nat} {es : List CodeEntry} {e e' : CodeEntry}

/-- A machine stands at one entry. -/
theorem At.index_eq (forward : Assembly.Forward es) (h : m.At start es i e) (h' : m.At start es j e') : i = j := by
  have same : Assembly.startOf es i = Assembly.startOf es j := by
    have ip := h.ip
    have ip' := h'.ip
    omega
  -- Only marks start where a later entry does, and a machine stands at none.
  rcases Nat.lt_trichotomy i j with before | rfl | behind
  · obtain ⟨l, mark⟩ := Assembly.mark_of_startOf_eq forward.readable same (Nat.le_refl i) before h.here
    exact absurd mark (h.unmarked l)
  · rfl
  · obtain ⟨l, mark⟩ := Assembly.mark_of_startOf_eq forward.readable same.symm (Nat.le_refl j) behind h'.here
    exact absurd mark (h'.unmarked l)

/-- Code from one place to a later one, cut in between. -/
theorem drop_take_append {n : Nat} (low : i ≤ j) (inside : j ≤ es.length) (high : j ≤ n) :
    (es.take n).drop i = (es.take j).drop i ++ (es.take n).drop j := by
  have front : (es.take n).take j = es.take j := by rw [List.take_take, Nat.min_eq_left high]
  have length : (es.take j).length = j := by rw [List.length_take, Nat.min_eq_left inside]
  have whole := List.take_append_drop j (es.take n)
  rw [front] at whole
  rw [← List.drop_append_of_le_length (Nat.le_trans low (Nat.le_of_eq length.symm)), whole]

end Machine

/-- The code of a function starts with the call of the trampoline. -/
theorem CompiledFunction.Written.entries_eq {f : CompiledFunction} {globals staging : List Holding} {d : Declarations}
    {g : FunctionId} {body : List Statement} {s' v t : LoweringState}
    (written : f.Written globals staging d g body s' v t) :
    v.assembly.entries = .call "trampoline" :: f.assembly.entries.tail := by
  obtain ⟨es, eq⟩ := written.coded.entries
  rw [written.assembly, eq]
  rfl

/-- The body of a function has each mark once. -/
theorem CompiledFunction.Written.marksOnce {f : CompiledFunction} {globals staging : List Holding} {d : Declarations}
    {g : FunctionId} {body : List Statement} {s' v t : LoweringState}
    (written : f.Written globals staging d g body s' v t) : Assembly.MarksOnce f.assembly.entries.tail := by
  obtain ⟨fine, -⟩ := written.coded.complete _ (Lower.idle_suits written.standing body)
  intro i j l hi hj
  have there {n : Nat} (h : f.assembly.entries.tail[n]? = some (.mark l)) : v.assembly.entries[n + 1]? = some (.mark l) := by
    rw [written.entries_eq, List.getElem?_cons_succ]
    exact h
  exact Nat.succ.inj (fine.ok.assembly.oneMark _ _ _ _ l (there hi) (there hj) rfl rfl)

namespace Program

variable {p : Program} {l : ObjectLayout} {f : CompiledFunction} {entry i : Nat} {m m' : Machine} {rsqrt : Word → Word}
  {e : CodeEntry}

/-- A machine at an entry of the body has left the trampoline. -/
theorem Running.stack_of_at (running : p.Running l f entry m) (site : p.Site l f entry)
    (at_ : m.At (entry + 5) f.assembly.entries.tail i e) : m.stack = [] := by
  have inside := at_.inside site.body
  cases running.stage with
  | called ip stack => omega
  | loading at' stack loaded localBase =>
    have early := (at'.inside site.trampoline).2
    have behind := site.behind
    omega
  | body at' stack localBase loaded => exact stack

/-- **A run in the body of a function** carries out the entries between the
one that it started from and the one that it has come to. -/
theorem Running.track (running : p.Running l f entry m) (site : p.Site l f entry) (keeps : p.Keeps l rsqrt m)
    (once : Assembly.MarksOnce f.assembly.entries.tail) (at_ : m.At (entry + 5) f.assembly.entries.tail i e)
    (reaches : ReflTransGen (Machine.Next rsqrt) m m') (q : Nat) :
    ∃ j e', i ≤ j ∧ m'.At (entry + 5) f.assembly.entries.tail j e' ∧
      Machine.Track.run rsqrt (.running (m.standing q)) ((f.assembly.entries.tail.take j).drop i) =
        .running (m'.standing q) := by
  induction reaches with
  | refl => exact ⟨i, e, Nat.le_refl i, at_, by rw [List.drop_eq_nil_of_le (List.length_take_le _ _)]; rfl⟩
  | @tail b c before last ih =>
    obtain ⟨j, e', low, there, run⟩ := ih
    have runningB := (running.reaches site keeps before).1
    have continues := runningB.next site (keeps _ before) last
    have step : b.step rsqrt = .ok (.running c) := last
    have steps : _ ∨ (∃ m₁ n, b.Moves rsqrt (entry + 5) f.assembly.entries.tail j e' m₁ n) ∨ _ :=
      Machine.step_forward site.body site.reaching there
    rcases steps with ⟨_, _, x, -, -, fails⟩ | ⟨m₁, n, moves⟩ | rfl
    · rw [step] at fails
      cases fails
    · obtain rfl := Machine.Progress.running.inj (Except.ok.inj (step.symm.trans moves.step))
      obtain ⟨e'', at'⟩ := moves.at continues.running.deployed.body
      have inside := (List.getElem?_eq_some_iff.1 there.here).1
      refine ⟨n, e'', Nat.le_trans low (Nat.le_of_lt moves.later), at', ?_⟩
      rw [Machine.drop_take_append low (Nat.le_of_lt inside) (Nat.le_of_lt moves.later), Machine.Track.run_append, run]
      exact Machine.Track.run_moves moves site.body site.reaching once there q
    · have holds := there.holds.entry there.here
      rw [← there.ip] at holds
      rw [(Machine.step_ret holds).1 (runningB.stack_of_at site there)] at step
      cases step

/-- **A run of an object carries out the code of its functions**: where it
comes to the start of a piece of code in a function, and later to the entry
behind it, the machine is the one that a run over that code leads to. Code is
told up to the distances of its jumps. The run accesses variables through
address registers as in `Program.runs_straight`. -/
theorem passes_code {o : Options} {source : String} (compiled : compile o source = .ok p) {floor : Nat}
    {object : Object} (build : Object.build p floor = .ok object)
    (small : (p.objectLayout floor).localOffset + (p.objectLayout floor).localSize ≤ 2 ^ 32)
    (mem : (f, entry) ∈ p.functions.zip (p.objectLayout floor).functionOffsets) (h : Host) {b : Block}
    (carries : object.Carries p (p.objectLayout floor) b) (whole : h.base + b.size ≤ 2 ^ 63)
    (keeps : p.Keeps (p.objectLayout floor) h.rsqrt (Object.machine { object with block := b } h entry))
    (reaches : ReflTransGen (Machine.Next h.rsqrt) (Object.machine { object with block := b } h entry) m)
    (later : ReflTransGen (Machine.Next h.rsqrt) m m') {front code back : List CodeEntry}
    (entries : f.assembly.entries.tail.map CodeEntry.unaimed = front ++ code ++ back) {e' : CodeEntry}
    (from_ : m.At (entry + 5) f.assembly.entries.tail front.length e)
    (to_ : m'.At (entry + 5) f.assembly.entries.tail (front ++ code).length e') :
    Machine.Track.run h.rsqrt (.running m) code = .running (m'.standing m.ip) := by
  obtain ⟨shader, u, -, lowered⟩ := lowered_of_compile compiled
  have short := Lowered.short_of_build floor small
  obtain ⟨built, -⟩ := lowered.built_of_build build short
  have site := lowered.site build small mem
  have deployed := (built.deployed lowered short mem).of_same site carries.size carries.code
  obtain ⟨g, w, body, s, v, t, -, -, written, -⟩ := lowered.functions f (List.of_mem_zip mem).1
  have start := Running.start (o := { object with block := b }) deployed whole
  have running := (start.reaches site keeps reaches).1
  obtain ⟨j, e'', low, there, run⟩ := running.track site (fun a further => keeps a (reaches.trans further))
    written.marksOnce from_ later m.ip
  obtain rfl := there.index_eq site.body to_
  rw [← Machine.Track.run_unaimed, List.map_drop, List.map_take, entries, List.take_left, List.drop_left,
    Machine.standing_ip] at run
  exact run

end Program

end Shading
