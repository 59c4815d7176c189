import Shading.Proofs.Lowering.Literals

/-!
# The order of first use

A constant joins the pool when it is first used. For floats this is when the
first literal with their bits is evaluated, for masks when the first
instruction that reads them is written:

* the floats of the pool are the literals of what has been lowered, without
  repetitions (`LoweringState.PoolsFloats`);
* its vectors are the masks that the code reads, without repetitions
  (`LoweringState.PoolsMasks`), and this holds at each literal, too, so that
  it also tells how floats and masks follow each other.

Both are invariants of lowering. Where a mask is looked up, the instruction
that reads it has not been written yet; that the invariant holds again behind
it is why the two are one step (`Lower.Masking.first`).
-/

namespace Shading

theorem eraseDups_concat_of_mem {α : Type} [BEq α] [LawfulBEq α] {xs : List α} {x : α} (mem : x ∈ xs) :
    (xs ++ [x]).eraseDups = xs.eraseDups := by
  simp [List.eraseDups_append, List.removeAll, mem]

theorem eraseDups_concat_of_notMem {α : Type} [BEq α] [LawfulBEq α] {xs : List α} {x : α} (new : x ∉ xs) :
    (xs ++ [x]).eraseDups = xs.eraseDups ++ [x] := by
  simp [List.eraseDups_append, List.removeAll, new, List.eraseDups_cons]

open Lower Regime

/-! ## Floats -/

/-- **The floats of the pool are some literals**, in the order of their first
occurrence. -/
structure LoweringState.PoolsFloats (s : LoweringState) (w : List Word) : Prop where
  agrees : s.constants.Agrees
  distinct : s.constants.keys.Nodup
  floats : s.constants.floatConstants.map Prod.fst = w.eraseDups

namespace LoweringState.PoolsFloats

variable {s t : LoweringState} {w : List Word} {bits : Word} {offset : Nat}

theorem congr (h : s.PoolsFloats w) (same : t.constants = s.constants) : t.PoolsFloats (w ++ []) := by
  obtain ⟨agrees, distinct, floats⟩ := h
  rw [List.append_nil]
  exact ⟨same ▸ agrees, same ▸ distinct, same ▸ floats⟩

/-- A new constant is none of the pool. -/
theorem distinct_add (h : s.PoolsFloats w) {c : Constant} (absent : s.constants.offset? c = none) :
    (s.constants.add c offset).keys.Nodup := by
  rw [ConstantPool.keys_add]
  refine List.nodup_append.2 ⟨h.distinct, List.nodup_singleton _, fun x hx y hy same => ?_⟩
  rw [List.mem_singleton.1 hy] at same
  exact h.agrees.notMem absent (same ▸ hx)

/-- A mask joins the pool. -/
theorem vector (h : s.PoolsFloats w) {lanes : Lanes} (absent : s.constants.offset? (.vector lanes) = none)
    (pool : t.constants = s.constants.add (.vector lanes) offset) : t.PoolsFloats w where
  agrees := pool ▸ h.agrees.add _ _
  distinct := pool ▸ h.distinct_add absent
  floats := by
    rw [pool, ConstantPool.floatConstants_add, ← h.floats]
    simp [Constant.bits?]

/-- **A literal that is new** joins the pool. -/
theorem joins (h : s.PoolsFloats w) (absent : s.constants.offset? (.float bits) = none)
    (pool : t.constants = s.constants.add (.float bits) offset) : t.PoolsFloats (w ++ [bits]) where
  agrees := pool ▸ h.agrees.add _ _
  distinct := pool ▸ h.distinct_add absent
  floats := by
    have new : bits ∉ w := fun mem => h.agrees.notMem_floats absent (by rwa [h.floats, List.mem_eraseDups])
    rw [pool, ConstantPool.floatConstants_add, eraseDups_concat_of_notMem new, ← h.floats]
    simp [Constant.bits?]

/-- **A literal that is known** changes nothing. -/
theorem known (h : s.PoolsFloats w) (found : s.constants.offset? (.float bits) = some offset) :
    s.PoolsFloats (w ++ [bits]) where
  agrees := h.agrees
  distinct := h.distinct
  floats := by
    have old : bits ∈ w := by
      rw [← List.mem_eraseDups, ← h.floats]
      exact List.mem_map_of_mem (ConstantPool.mem_floatConstants.2 (h.agrees.mem found))
    rw [eraseDups_concat_of_mem old, h.floats]

end LoweringState.PoolsFloats

/-! ## Masks -/

/-- **The instructions of some code that read a mask** read the one that each
calls for. -/
def MasksIn (pool : ConstantPool) (es : List CodeEntry) : Prop :=
  ∀ before i text after, es = before ++ .instruction i text :: after → i.readsMask = true → ∃ lanes offset,
    maskBehind before.getLast? i.opcode = some lanes ∧ i.rm = .globalAt offset ∧ (.vector lanes, offset) ∈ pool.slots

namespace MasksIn

variable {pool pool' : ConstantPool} {es : List CodeEntry}

theorem mono (h : MasksIn pool es) (sub : ∀ c ∈ pool.slots, c ∈ pool'.slots) : MasksIn pool' es := by
  intro before i text after eq reads
  obtain ⟨lanes, offset, calls, place, pooled⟩ := h before i text after eq reads
  exact ⟨lanes, offset, calls, place, sub _ pooled⟩

/-- An entry behind the code, which may be an instruction with a mask. -/
theorem concat (h : MasksIn pool es) {e : CodeEntry}
    (last : ∀ i text, e = .instruction i text → i.readsMask = true → ∃ lanes offset,
      maskBehind es.getLast? i.opcode = some lanes ∧ i.rm = .globalAt offset ∧ (.vector lanes, offset) ∈ pool.slots) :
    MasksIn pool (es ++ [e]) := by
  intro before i text after eq reads
  rcases List.eq_nil_or_concat after with rfl | ⟨after, x, rfl⟩
  · obtain ⟨rfl, same⟩ := List.append_inj' eq rfl
    exact last i text (List.cons.inj same).1 reads
  · rw [List.concat_eq_append, ← List.cons_append, ← List.append_assoc] at eq
    exact h before i text after (List.append_inj' eq rfl).1 reads

/-- Distances do not matter. -/
theorem map (h : MasksIn pool es) (f : CodeEntry → CodeEntry)
    (same : ∀ e, (f e).instruction? = e.instruction? ∧ ∀ i text, f e = .instruction i text → e = .instruction i text) :
    MasksIn pool (es.map f) := by
  intro before i text after eq reads
  obtain ⟨front, back, rfl, rfl, behind⟩ := List.map_eq_append_iff.1 eq
  obtain ⟨e, rest, rfl, here, rfl⟩ := List.map_eq_cons_iff.1 behind
  obtain rfl := (same e).2 i text here
  obtain ⟨lanes, offset, calls, place, pooled⟩ := h front i text rest rfl reads
  refine ⟨lanes, offset, ?_, place, pooled⟩
  rw [← calls, List.getLast?_map]
  refine maskBehind_congr ?_ i.opcode
  cases front.getLast? with
  | none => rfl
  | some x => exact (same x).1

end MasksIn

theorem Assembly.instruction?_setDistance (l : Nat) (d : Int) (e : CodeEntry) :
    (Assembly.setDistance l d e).instruction? = e.instruction? ∧
      ∀ i text, Assembly.setDistance l d e = .instruction i text → e = .instruction i text := by
  cases e <;> simp [Assembly.setDistance, CodeEntry.instruction?]

/-- The entries when a label is bound: distances are set, and a mark may
follow. -/
theorem Assembly.entries_of_bind {a a' : Assembly} {l : Nat} (run : a.bind l = .ok a') :
    a' = a ∨ ∃ d, a'.entries = a.entries.map (Assembly.setDistance l d) ++ [.mark l] := by
  unfold Assembly.bind at run
  split at run
  · cases run
    exact .inl rfl
  · dsimp only at run
    split at run
    · cases run
      exact .inr ⟨_, rfl⟩
    · cases run

/-- What plain steps write reads no mask. -/
theorem Lower.plain_masks : Plain fun s t => masksRead none t.assembly.entries = masksRead none s.assembly.entries ∧
    ∀ pool, MasksIn pool s.assembly.entries → MasksIn pool t.assembly.entries where
  refl _ := ⟨rfl, fun _ h => h⟩
  trans h h' := ⟨h'.1.trans h.1, fun pool masks => h'.2 pool (h.2 pool masks)⟩
  storage assembly _ _ := ⟨by rw [assembly], fun _ h => by rwa [assembly]⟩
  entry s e labels plain := by
    refine ⟨?_, fun pool h => h.concat fun i text eq reads => ?_⟩
    · rw [show (passed s e labels).assembly.entries = s.assembly.entries ++ [e] from rfl, masksRead_concat,
        maskRead_eq_none plain, Option.toList_none, List.append_nil]
    · subst eq
      rw [plain i rfl] at reads
      cases reads
  bind s l a run := by
    rcases Assembly.entries_of_bind run with rfl | ⟨d, entries⟩
    · exact ⟨rfl, fun _ h => h⟩
    have same := Assembly.instruction?_setDistance l d
    refine ⟨?_, fun pool h => ?_⟩
    · rw [show ({ s with assembly := a } : LoweringState).assembly.entries = _ from entries, masksRead_concat,
        maskRead_eq_none (by rintro _ ⟨⟩), Option.toList_none, List.append_nil]
      exact masksRead_map (fun e => (same e).1) s.assembly.entries none
    · rw [show ({ s with assembly := a } : LoweringState).assembly.entries = _ from entries]
      exact (h.map _ same).concat (by rintro _ _ ⟨⟩)

/-- **The vectors of the pool are the masks that the code reads** behind some
others, in the order of their first use, and the code reads them where they
are. -/
structure LoweringState.PoolsMasks (s : LoweringState) (w : List Lanes) : Prop where
  agrees : s.constants.Agrees
  masks : s.constants.vectorConstants.map Prod.fst = (w ++ masksRead none s.assembly.entries).eraseDups
  places : MasksIn s.constants s.assembly.entries

namespace LoweringState.PoolsMasks

variable {s t : LoweringState} {w : List Lanes}

/-- Steps behind which the same masks have been read. -/
theorem congr (h : s.PoolsMasks w) (constants : t.constants = s.constants)
    (same : masksRead none t.assembly.entries = masksRead none s.assembly.entries ∧
      ∀ pool, MasksIn pool s.assembly.entries → MasksIn pool t.assembly.entries) : t.PoolsMasks w := by
  obtain ⟨agrees, masks, places⟩ := h
  exact ⟨constants ▸ agrees, by rw [constants, same.1, masks], constants ▸ same.2 _ places⟩

/-- The masks that are read when one more is. -/
theorem masksRead_passed {i : Instruction Nat} {text : String} {lanes : Lanes} (reads : i.readsMask = true)
    (calls : maskBehind s.assembly.entries.getLast? i.opcode = some lanes) (labels : Nat) :
    masksRead none (passed s (.instruction i text) labels).assembly.entries = masksRead none s.assembly.entries ++ [lanes] := by
  rw [show (passed s (.instruction i text) labels).assembly.entries = s.assembly.entries ++ [.instruction i text] from rfl,
    masksRead_concat, Option.or_none]
  simp [maskRead, CodeEntry.instruction?, reads, calls]

/-- **A mask that is pooled is read.** -/
theorem mask (h : s.PoolsMasks w) {i : Instruction Nat} (text : String) (reads : i.readsMask = true)
    (masks : s.Masks i) : (passed s (.instruction i text) s.assembly.labels).PoolsMasks w := by
  obtain ⟨lanes, offset, calls, place, found⟩ := masks
  have pooled := h.agrees.mem found
  refine ⟨h.agrees, ?_, h.places.concat ?_⟩
  · have old : lanes ∈ w ++ masksRead none s.assembly.entries := by
      rw [← List.mem_eraseDups, ← h.masks]
      exact List.mem_map_of_mem (ConstantPool.mem_vectorConstants.2 pooled)
    rw [masksRead_passed reads calls, ← List.append_assoc, eraseDups_concat_of_mem old]
    exact h.masks
  · rintro _ _ ⟨⟩ -
    exact ⟨lanes, offset, calls, place, pooled⟩

/-- **A mask joins the pool and is read.** -/
theorem first (h : s.PoolsMasks w) {lanes : Lanes} {offset : Nat} {i : Instruction Nat} (text : String)
    (absent : s.constants.offset? (.vector lanes) = none)
    (pool : t.constants = s.constants.add (.vector lanes) offset) (same : masksRead none t.assembly.entries =
      masksRead none s.assembly.entries) (places : MasksIn t.constants t.assembly.entries) (reads : i.readsMask = true)
    (calls : maskBehind t.assembly.entries.getLast? i.opcode = some lanes) (place : i.rm = .globalAt offset) :
    (passed t (.instruction i text) t.assembly.labels).PoolsMasks w := by
  refine ⟨pool ▸ h.agrees.add _ _, ?_, places.concat ?_⟩
  · have new : lanes ∉ w ++ masksRead none s.assembly.entries := fun mem =>
      h.agrees.notMem_vectors absent (by rwa [h.masks, List.mem_eraseDups])
    rw [masksRead_passed reads calls, same, ← List.append_assoc, eraseDups_concat_of_notMem new, ← h.masks]
    simp [passed, pool, Constant.lanes?]
  · rintro _ _ ⟨⟩ -
    exact ⟨lanes, offset, calls, place, by simp [pool]⟩

end LoweringState.PoolsMasks

namespace Lower

variable {s t : LoweringState}

/-- **The order of masks is an invariant** of lowering. -/
theorem closed_poolsMasks (w : List Lanes) : Closed fun s t => s.PoolsMasks w → t.PoolsMasks w where
  refl _ h := h
  trans h h' := h' ∘ h
  storage assembly constants declarations h := h.congr constants (plain_masks.storage assembly constants declarations)
  entry s _ labels plain h := h.congr rfl (plain_masks.entry s labels plain)
  bind s _ _ run h := h.congr rfl (plain_masks.bind s run)
  mask _ _ text reads masks h := h.mask text reads masks
  first {s t lanes i} offset text absent plainly reads calls place h := by
    have pool : t.constants = s.constants.add (.vector lanes) offset := plainly _ plain_constants
    obtain ⟨same, places⟩ := plainly _ plain_masks
    refine h.first text absent pool same (places _ ?_) reads calls place
    exact h.places.mono fun c hc => by
      rw [pool, ConstantPool.slots_add]
      exact List.mem_append_left _ hc
  joins s bits offset _ h :=
    { agrees := h.agrees.add (.float bits) offset
      masks := by
        rw [ConstantPool.vectorConstants_add]
        simpa [Constant.lanes?] using h.masks
      places := h.places.mono fun c hc => by
        rw [ConstantPool.slots_add]
        exact List.mem_append_left _ hc }

/-! ## Whole programs -/

/-- Relations that the functions of a program respect, too: they do not ask
for the code. -/
structure FollowsOver (R : List Word → LoweringState → LoweringState → Prop) : Prop extends Follows R where
  any {s t : LoweringState} : t.constants = s.constants → R [] s t

/-- **The order of floats is an invariant** of lowering. -/
theorem followsOver_poolsFloats : FollowsOver fun v s t => ∀ w, s.PoolsFloats w → t.PoolsFloats (w ++ v) where
  refl _ w h := by rwa [List.append_nil]
  trans h h' w known := by simpa using h' _ (h w known)
  storage _ constants _ w h := h.congr constants
  entry _ _ _ _ w h := h.congr rfl
  bind _ _ _ _ w h := h.congr rfl
  mask _ _ _ _ _ w h := h.congr rfl
  first {s t lanes i} offset text absent plainly _ _ _ w h := by
    have pool : t.constants = s.constants.add (.vector lanes) offset := plainly _ plain_constants
    exact (h.vector absent pool).congr rfl
  chain h h' w known := by simpa using h' _ (h w known)
  known _ _ _ found w h := h.known found
  joins s bits offset absent w h := h.joins absent rfl
  any same w h := h.congr same

namespace FollowsOver

variable {R : List Word → LoweringState → LoweringState → Prop} (follows : FollowsOver R)

include follows

/-- A change that leaves the pool as it is. -/
theorem change {f : LoweringState → LoweringState} (constants : ∀ s, (f s).constants = s.constants) :
    Respects (R []) (modify f : Lower Unit) := fun s => .modify (follows.any (constants s))

theorem setLocation (id : SymbolId) (l : Location) : Respects (R []) (Lower.setLocation id l) :=
  follows.change fun _ => rfl

theorem placeParameter (id : SymbolId) : Respects (R []) (Lower.placeParameter id) := by
  rw [Lower.placeParameter_def]
  exact follows.ofGet fun _ => follows.step (follows.place _) fun _ => follows.setLocation _ _

theorem placeLocal (id : SymbolId) : Respects (R []) (Lower.placeLocal id) := by
  rw [Lower.placeLocal_def]
  refine follows.ofGet fun s => ?_
  cases s.placement with
  | memoryFirst => exact follows.step (follows.placeInMemory _) fun _ => follows.setLocation _ _
  | registerFirst => exact follows.step (follows.place _) fun _ => follows.setLocation _ _

theorem function (id : FunctionId) (body : List Statement) :
    Respects (R (Statement.allFloats body)) (Lower.function id body) := by
  rw [Lower.function_eq]
  refine follows.before (follows.change fun _ => rfl) fun _ => follows.ofGet fun s => ?_
  refine follows.behind (follows.inScope ?_) fun _ => follows.step (follows.change fun _ => rfl) fun _ => follows.pure _
  refine follows.before (follows.forM follows.placeParameter _) fun _ =>
    follows.before (follows.forM follows.placeLocal _) fun _ => follows.ofGet fun s => ?_
  exact follows.before (follows.change fun _ => rfl) fun _ => follows.behind (follows.statements body) fun _ =>
    follows.step follows.emitReturn fun _ => follows.pure _

theorem functions : (items : List Item) → Respects (R (items.flatMap Item.floats)) (Lower.functions items)
  | [] => follows.pure _
  | .global _ _ :: items => functions items
  | .function id name _ body :: items => by
    unfold Lower.functions
    exact follows.seq (follows.function id body) fun _ => follows.ofGet fun s =>
      follows.behind (functions items) fun _ => follows.pure _

theorem placeGlobal (id : SymbolId) (v : Symbol) : Respects (R []) (Lower.placeGlobal id v) := by
  refine follows.ofGet fun s => ?_
  have rest (placed : Location × Layout) : Respects (R []) (do
      modify fun s => { s with layout := placed.2 }
      let staging ←
        if placed.1.isRegister then do
          let slot ← Lower.allocateGlobal 16
          Pure.pure (some slot)
        else Pure.pure none
      Lower.setLocation id placed.1
      return { name := v.name, ty := v.ty, location := placed.1, staging, intrinsic := v.intrinsic } : Lower GlobalSlot) := by
    refine follows.step (follows.change fun _ => rfl) fun _ => ?_
    have last (staging : Option Location) : Respects (R []) (do
        Lower.setLocation id placed.1
        return { name := v.name, ty := v.ty, location := placed.1, staging, intrinsic := v.intrinsic } : Lower GlobalSlot) :=
      follows.step (follows.setLocation _ _) fun _ => follows.pure _
    exact Plain.ite (follows.step (follows.allocateGlobal _) fun _ => follows.step (follows.pure _) last)
      (follows.step (follows.pure _) last)
  exact Plain.ite (follows.step (follows.lift _) rest) (follows.step (follows.lift _) rest)

theorem placeGlobals : (ids : List SymbolId) → Respects (R []) (Lower.placeGlobals ids)
  | [] => follows.pure _
  | id :: ids => by
    unfold Lower.placeGlobals
    refine follows.ofGet fun s => ?_
    cases s.declarations.symbols.get? id with
    | none => exact placeGlobals ids
    | some v =>
      exact Plain.ite (follows.step (follows.placeGlobal id v) fun _ => follows.step (placeGlobals ids) fun _ => follows.pure _)
        (placeGlobals ids)

/-- **The lowering of a program** respects the relation of its literals. -/
theorem program (items : List Item) : Respects (R (items.flatMap Item.floats)) (Lower.program items) :=
  follows.ofGet fun _ => follows.before (follows.placeGlobals _) fun _ => follows.behind (follows.functions items) fun _ =>
    follows.step follows.toMasking.get fun _ => follows.pure _

end FollowsOver

end Lower

end Shading
