import Shading.Proofs.Assembly.Labels

/-!
# The sites of jumps

Whatever is written, and whichever labels are bound in between, in any order
and any number of times, the code is that of the acts of writing one behind
another (`Assembly.written`), but for the fields of its jumps. These lie apart
(`Assembly.fields`), and each holds the distance from its end to where its
label was last bound, or zero (`Assembly.Holds`).

The entries of assembled code keep the distances themselves, so their jumps are
read off as *sites*. Writing adds a site or none; binding changes the distance
of one (`Traces.step`).
-/

namespace Shading

/-! ## Fields -/

/-- **The field of a jump** in the code, where its distance stands. -/
structure Field where
  start : Nat
  width : Nat
deriving DecidableEq

namespace Field

/-- The end of a field, from which distances count. -/
def stop (f : Field) : Nat := f.start + f.width

/-- Whether a byte of the code is in a field. -/
def Contains (f : Field) (k : Nat) : Prop := f.start ≤ k ∧ k < f.stop

/-- The distance from the end of a field to a position. -/
def distance (f : Field) (position : Nat) : Int := (position : Int) - f.stop

/-- Whether a field can hold the distance to a position. -/
def reaches (f : Field) (position : Nat) : Bool := fitsSigned (8 * f.width) (f.distance position)

end Field

namespace Assembly

/-! ## Acts of writing -/

/-- **The bytes that an act adds** to the code, with zeros where a distance
will stand. -/
def Action.bytes : Action → List UInt8
  | .emit i _ => i.encode
  | .raw bytes _ => bytes
  | .ret => [0xC3]
  | .cdq => [0x99]
  | .call _ => 0xE8 :: [0, 0, 0, 0]
  | .jump form => form.header ++ List.replicate form.width 0
  | .bind _ => []

/-- **The bytes that acts add**, one behind another. -/
def written (actions : List Action) : List UInt8 := actions.flatMap Action.bytes

/-- The fields of the jumps that are written from an offset on. -/
def fieldsFrom (start : Nat) : List Action → List Field
  | [] => []
  | x :: xs =>
    let rest := fieldsFrom (start + x.bytes.length) xs
    match x with
    | .jump form => ⟨start + form.header.length, form.width⟩ :: rest
    | _ => rest

/-- **The fields of the jumps** that are written, in their order. -/
def fields (actions : List Action) : List Field := fieldsFrom 0 actions

/-- **The field of a label.** Labels are given out from one on. -/
def field? (actions : List Action) : Nat → Option Field
  | 0 => none
  | label + 1 => (fields actions)[label]?

/-- **An act binds a label**: the label has a jump by then, whose field can hold
the distance to the end of the code. -/
structure Binds (actions : List Action) (label : Nat) (f : Field) (i : Nat) : Prop where
  act : actions[i]? = some (.bind label)
  given : field? (actions.take i) label = some f
  reaches : f.reaches (written (actions.take i)).length = true

/-- **The distance that a jump holds**: to the end of the code at the last act
that bound its label, and zero before the first one. -/
def Holds (actions : List Action) (label : Nat) (f : Field) (d : Int) : Prop :=
  (∃ i, Binds actions label f i ∧ (∀ j, i < j → ¬ Binds actions label f j) ∧
    d = f.distance (written (actions.take i)).length) ∨
  ((∀ i, ¬ Binds actions label f i) ∧ d = 0)

theorem fieldsFrom_append (xs ys : List Action) (start : Nat) :
    fieldsFrom start (xs ++ ys) = fieldsFrom start xs ++ fieldsFrom (start + (written xs).length) ys := by
  induction xs generalizing start with
  | nil => rfl
  | cons x xs ih =>
    have total : start + x.bytes.length + (written xs).length = start + (written (x :: xs)).length := by
      simp [written]
      omega
    cases x <;> simp [fieldsFrom, ih, total]

theorem fields_concat (actions : List Action) (x : Action) :
    fields (actions ++ [x]) = fields actions ++ fieldsFrom (written actions).length [x] := by
  rw [fields, fieldsFrom_append, Nat.zero_add, fields]

/-- Labels keep their fields when more is written. -/
theorem field?_append {actions : List Action} {label : Nat} {f : Field} (h : field? actions label = some f)
    (more : List Action) : field? (actions ++ more) label = some f := by
  cases label with
  | zero => cases h
  | succ label =>
    have h : (fields actions)[label]? = some f := h
    change (fields (actions ++ more))[label]? = some f
    rw [fields, fieldsFrom_append]
    exact (List.getElem?_append_left (List.getElem?_eq_some_iff.1 h).1).trans h

/-- The last act binds a label, or it was bound before. -/
theorem binds_concat {actions : List Action} {x : Action} {label i : Nat} {f : Field} :
    Binds (actions ++ [x]) label f i ↔ Binds actions label f i ∨
      i = actions.length ∧ x = .bind label ∧ field? actions label = some f ∧
        f.reaches (written actions).length = true := by
  rcases Nat.lt_trichotomy i actions.length with lt | rfl | gt
  · have before : (actions ++ [x]).take i = actions.take i := List.take_append_of_le_length (Nat.le_of_lt lt)
    have act : (actions ++ [x])[i]? = actions[i]? := List.getElem?_append_left lt
    constructor
    · intro h
      exact .inl ⟨act ▸ h.act, before ▸ h.given, before ▸ h.reaches⟩
    · rintro (h | ⟨rfl, -⟩)
      · exact ⟨act.trans h.act, before.symm ▸ h.given, before.symm ▸ h.reaches⟩
      · exact absurd lt (Nat.lt_irrefl _)
  · have before : (actions ++ [x]).take actions.length = actions := List.take_left
    have act : (actions ++ [x])[actions.length]? = some x := List.getElem?_concat_length
    constructor
    · intro h
      refine .inr ⟨rfl, Option.some.inj (act.symm.trans h.act), ?_, ?_⟩
      · exact before ▸ h.given
      · exact before ▸ h.reaches
    · rintro (h | ⟨-, rfl, given, reaches⟩)
      · have := (List.getElem?_eq_some_iff.1 h.act).1
        exact absurd this (Nat.lt_irrefl _)
      · exact ⟨act, before.symm ▸ given, before.symm ▸ reaches⟩
  · constructor
    · intro h
      have := (List.getElem?_eq_some_iff.1 h.act).1
      simp at this
      omega
    · rintro (h | ⟨rfl, -⟩)
      · have := (List.getElem?_eq_some_iff.1 h.act).1
        omega
      · exact absurd gt (Nat.lt_irrefl _)

/-- An act that does not bind a label leaves its distance. -/
theorem Holds.concat {actions : List Action} {x : Action} {label : Nat} {f : Field} {d : Int}
    (h : Holds actions label f d) (spares : x = .bind label → f.reaches (written actions).length = false) :
    Holds (actions ++ [x]) label f d := by
  have same (i : Nat) : Binds (actions ++ [x]) label f i ↔ Binds actions label f i := by
    refine binds_concat.trans ⟨fun h => h.resolve_right ?_, .inl⟩
    rintro ⟨-, binds, -, reaches⟩
    rw [spares binds] at reaches
    cases reaches
  rcases h with ⟨i, binds, last, rfl⟩ | ⟨never, rfl⟩
  · refine .inl ⟨i, (same i).2 binds, fun j later => mt (same j).1 (last j later), ?_⟩
    have lt := (List.getElem?_eq_some_iff.1 binds.act).1
    rw [List.take_append_of_le_length (Nat.le_of_lt lt)]
  · exact .inr ⟨fun i => mt (same i).1 (never i), rfl⟩

/-- A binding sets the distance. -/
theorem holds_bind {actions : List Action} {label : Nat} {f : Field} (given : field? actions label = some f)
    (reaches : f.reaches (written actions).length = true) :
    Holds (actions ++ [.bind label]) label f (f.distance (written actions).length) := by
  refine .inl ⟨actions.length, binds_concat.2 (.inr ⟨rfl, rfl, given, reaches⟩), fun j later binds => ?_, ?_⟩
  · have := (List.getElem?_eq_some_iff.1 binds.act).1
    simp at this
    omega
  · rw [List.take_left]

/-! ## Sites -/

end Assembly

/-- **The jump of a label** in the code, with the distance it holds. -/
structure Site where
  label : Nat
  field : Field
  distance : Int

/-- The bytes of an entry, with zeros for the distance of a jump. -/
def CodeEntry.blank : CodeEntry → List UInt8
  | .jump form _ _ => form.header ++ List.replicate form.width 0
  | e => e.bytes

theorem CodeEntry.length_blank (e : CodeEntry) : e.blank.length = e.size := by
  cases e <;> simp [blank, size, bytes]

theorem CodeEntry.blank_setDistance (l : Nat) (d : Int) (e : CodeEntry) :
    (Assembly.setDistance l d e).blank = e.blank := by
  cases e <;> rfl

namespace Assembly

/-- The jumps among entries that start at an offset. -/
def sitesFrom (start : Nat) : List CodeEntry → List Site
  | [] => []
  | e :: es =>
    let rest := sitesFrom (start + e.size) es
    match e with
    | .jump form label distance => ⟨label, ⟨start + form.header.length, form.width⟩, distance⟩ :: rest
    | _ => rest

theorem sitesFrom_append (xs ys : List CodeEntry) (start : Nat) :
    sitesFrom start (xs ++ ys) = sitesFrom start xs ++ sitesFrom (start + sizeOf xs) ys := by
  induction xs generalizing start with
  | nil => rfl
  | cons e es ih =>
    have total : start + e.size + sizeOf es = start + sizeOf (e :: es) := by rw [sizeOf_cons, Nat.add_assoc]
    cases e <;> simp [sitesFrom, ih, total]

/-- A jump of a label with its new distance. -/
def Site.bound (label : Nat) (d : Int) (s : Site) : Site := if s.label = label then { s with distance := d } else s

theorem Site.bound_label (label : Nat) (d : Int) (s : Site) : (Site.bound label d s).label = s.label := by
  unfold bound
  split <;> rfl

theorem Site.bound_field (label : Nat) (d : Int) (s : Site) : (Site.bound label d s).field = s.field := by
  unfold bound
  split <;> rfl

/-- Setting the distance of a jump changes that of its site. -/
theorem sitesFrom_setDistance (label : Nat) (d : Int) (es : List CodeEntry) (start : Nat) :
    sitesFrom start (es.map (setDistance label d)) = (sitesFrom start es).map (Site.bound label d) := by
  induction es generalizing start with
  | nil => rfl
  | cons e es ih =>
    cases e with
    | jump form l d' =>
      simp only [List.map_cons, sitesFrom, CodeEntry.size_setDistance, ih]
      simp only [setDistance, Site.bound, CodeEntry.size, CodeEntry.bytes]
      split <;> rfl
    | _ => exact ih _

/-- Binding a label changes the site of its jump. -/
theorem sitesFrom_bound (label : Nat) (d : Int) (es : List CodeEntry) (start : Nat) :
    sitesFrom start (es.map (setDistance label d) ++ [.mark label]) = (sitesFrom start es).map (Site.bound label d) := by
  rw [sitesFrom_append, sitesFrom_setDistance]
  exact List.append_nil _

/-- **A site is a jump among the entries**, behind those in front of it. -/
theorem exists_of_mem_sitesFrom {s : Site} {es : List CodeEntry} {start : Nat} (h : s ∈ sitesFrom start es) :
    ∃ before form after, es = before ++ .jump form s.label s.distance :: after ∧
      s.field = ⟨start + sizeOf before + form.header.length, form.width⟩ := by
  induction es generalizing start with
  | nil => cases h
  | cons e es ih =>
    have later (h : s ∈ sitesFrom (start + e.size) es) :
        ∃ before form after, e :: es = before ++ .jump form s.label s.distance :: after ∧
          s.field = ⟨start + sizeOf before + form.header.length, form.width⟩ := by
      obtain ⟨before, form, after, rfl, field⟩ := ih h
      refine ⟨e :: before, form, after, rfl, ?_⟩
      rw [field, sizeOf_cons, Nat.add_assoc start]
    cases e with
    | jump form l d =>
      rcases List.mem_cons.1 h with rfl | h
      · exact ⟨[], form, es, rfl, rfl⟩
      · exact later h
    | _ => exact later h

/-- The sites of entries lie between where these start and where they end. -/
theorem within_of_mem_sitesFrom {s : Site} {es : List CodeEntry} {n : Nat} (h : s ∈ sitesFrom n es) :
    n ≤ s.field.start ∧ s.field.stop ≤ n + sizeOf es := by
  obtain ⟨before, form, after, rfl, field⟩ := exists_of_mem_sitesFrom h
  rw [Field.stop, field, sizeOf_append, sizeOf_cons]
  simp only [CodeEntry.size, CodeEntry.bytes, List.length_append, length_littleEndian]
  omega

/-- **Sites lie one behind another.** -/
theorem pairwise_sitesFrom (es : List CodeEntry) (start : Nat) :
    (sitesFrom start es).Pairwise fun s s' => s.field.stop ≤ s'.field.start := by
  induction es generalizing start with
  | nil => exact .nil
  | cons e es ih =>
    cases e with
    | jump form l d =>
      refine List.pairwise_cons.2 ⟨fun s hs => ?_, ih _⟩
      have := (within_of_mem_sitesFrom hs).1
      simpa [Field.stop, CodeEntry.size, CodeEntry.bytes, Nat.add_assoc] using this
    | _ => exact ih _

/-- A label that is looked up has a site, and one that is not found has none. -/
theorem findJump?_sites (label : Nat) (es : List CodeEntry) (start : Nat) :
    (findJump? label start es = none ∧ ∀ s ∈ sitesFrom start es, s.label ≠ label) ∨
    ∃ form, ∃ s ∈ sitesFrom start es, s.label = label ∧ s.field.width = form.width ∧
      findJump? label start es = some (form, s.field.stop) := by
  induction es generalizing start with
  | nil => exact .inl ⟨rfl, by simp [sitesFrom]⟩
  | cons e es ih =>
    cases e with
    | jump form l d =>
      by_cases same : l = label
      · refine .inr ⟨form, ⟨l, ⟨start + form.header.length, form.width⟩, d⟩, List.mem_cons_self, same, rfl, ?_⟩
        simp [findJump?, same, Field.stop, CodeEntry.size, CodeEntry.bytes, Nat.add_assoc]
      · rw [findJump?, if_neg same]
        rcases ih (start + (CodeEntry.jump form l d).size) with ⟨none, others⟩ | ⟨form', s, hs, rest⟩
        · refine .inl ⟨none, fun s hs => ?_⟩
          rcases List.mem_cons.1 hs with rfl | hs
          · exact same
          · exact others s hs
        · exact .inr ⟨form', s, List.mem_cons_of_mem _ hs, rest⟩
    | _ => exact ih _

/-! ## The bytes of entries -/

/-- The bytes of the field of a site are those of its distance. -/
theorem code_of_site {s : Site} {es : List CodeEntry} (h : s ∈ sitesFrom 0 es) :
    ((es.flatMap CodeEntry.bytes).drop s.field.start).take s.field.width =
      littleEndian s.field.width (wordOfInt s.distance) := by
  obtain ⟨before, form, after, rfl, field⟩ := exists_of_mem_sitesFrom h
  have front : (before.flatMap CodeEntry.bytes ++ form.header).length = 0 + sizeOf before + form.header.length := by
    rw [List.length_append, List.length_flatMap, Nat.zero_add]
    rfl
  rw [field, List.flatMap_append, List.flatMap_cons, CodeEntry.bytes, List.append_assoc, ← List.append_assoc, ← front,
    List.drop_left]
  exact List.take_left' (length_littleEndian _ _)

/-- **Outside of some fields** the bytes of entries stay, if only the distances of
these jumps are written in another way. -/
theorem code_outside {other : CodeEntry → List UInt8} {p : Nat → Prop} (length : ∀ e, (other e).length = e.size)
    (header : ∀ form l d, form.header <+: other (.jump form l d))
    (same : ∀ e, (∀ l, e.jump? = some l → ¬ p l) → other e = e.bytes) {es : List CodeEntry} {n k : Nat}
    (outside : ∀ s ∈ sitesFrom n es, p s.label → ¬ s.field.Contains (n + k)) :
    (es.flatMap CodeEntry.bytes)[k]? = (es.flatMap other)[k]? := by
  induction es generalizing n k with
  | nil => rfl
  | cons e es ih =>
    have sub : ∀ s ∈ sitesFrom (n + e.size) es, s ∈ sitesFrom n (e :: es) := by
      intro s hs
      cases e with
      | jump form l d => exact List.mem_cons_of_mem _ hs
      | _ => exact hs
    rw [List.flatMap_cons, List.flatMap_cons]
    by_cases here : k < e.size
    · rw [List.getElem?_append_left here, List.getElem?_append_left (by rwa [length])]
      cases e with
      | jump form l d =>
        by_cases touched : p l
        · have before : k < form.header.length := by
            have spared := outside _ List.mem_cons_self touched
            simp only [CodeEntry.size, CodeEntry.bytes, List.length_append, length_littleEndian] at here
            simp only [Field.Contains, Field.stop, not_and, Nat.not_lt] at spared
            omega
          obtain ⟨rest, eq⟩ := header form l d
          rw [CodeEntry.bytes, ← eq, List.getElem?_append_left before, List.getElem?_append_left before]
        · rw [same _ fun _ eq => by cases eq; exact touched]
      | _ => rw [same _ (by rintro _ ⟨⟩)]
    · have least : e.size ≤ k := Nat.le_of_not_lt here
      rw [List.getElem?_append_right least, List.getElem?_append_right (by rwa [length]), length]
      refine ih (n := n + e.size) fun s hs touched => ?_
      have same : n + e.size + (k - e.size) = n + k := by omega
      exact same ▸ outside s (sub s hs) touched

/-- A relocation is that of an instruction, behind the entries in front of it. -/
theorem exists_of_mem_relocationsFrom {r : Relocation} {es : List CodeEntry} {start : Nat}
    (h : r ∈ relocationsFrom start es) : ∃ before i text after, es = before ++ .instruction i text :: after ∧
      i.relocation? (start + sizeOf before) = some r := by
  induction es generalizing start with
  | nil => cases h
  | cons e es ih =>
    have later (h : r ∈ relocationsFrom (start + e.size) es) :
        ∃ before i text after, e :: es = before ++ .instruction i text :: after ∧
          i.relocation? (start + sizeOf before) = some r := by
      obtain ⟨before, i, text, after, rfl, here⟩ := ih h
      refine ⟨e :: before, i, text, after, rfl, ?_⟩
      rwa [sizeOf_cons, ← Nat.add_assoc]
    cases e with
    | instruction i text =>
      rcases List.mem_append.1 h with h | h
      · exact ⟨[], i, text, es, rfl, Option.mem_toList.1 h⟩
      · exact later h
    | _ => exact later h

/-- The displacement of a global operand is left open, in front of the
immediate bytes. -/
theorem relocation_field {i : Instruction Nat} {start : Nat} {r : Relocation} (h : i.relocation? start = some r) :
    start ≤ r.position ∧ r.position + 4 ≤ start + i.encode.length ∧
      (i.encode.drop (r.position - start)).take 4 = [0, 0, 0, 0] := by
  obtain ⟨o, reg, rm, immediate⟩ := i
  cases rm with
  | globalAt target =>
    cases h
    have front : Instruction.encode ⟨o, reg, .globalAt target, immediate⟩ =
        (o.header ++ [UInt8.ofNat (8 * Instruction.field ⟨o, reg, .globalAt target, immediate⟩ + 5)]) ++
          (wordBytes 0 ++ immediate) := by
      simp [Instruction.encode, Instruction.encodeWith, Operand.encode]
    have length : (wordBytes 0).length = 4 := length_littleEndian 4 0
    rw [front]
    generalize o.header ++ _ = header
    simp only [List.length_append, length]
    refine ⟨by omega, by omega, ?_⟩
    rw [show start + (header.length + (4 + immediate.length)) - immediate.length - 4 - start = header.length by omega,
      List.drop_left, ← length, List.take_left]
    decide
  | _ => cases h

/-- **A relocation stands for zeros** that belong to no site. -/
theorem code_of_relocation {r : Relocation} {es : List CodeEntry} (h : r ∈ relocationsFrom 0 es) :
    ((es.flatMap CodeEntry.bytes).drop r.position).take 4 = [0, 0, 0, 0] ∧
      ∀ s ∈ sitesFrom 0 es, r.position + 4 ≤ s.field.start ∨ s.field.stop ≤ r.position := by
  obtain ⟨before, i, text, after, rfl, here⟩ := exists_of_mem_relocationsFrom h
  rw [Nat.zero_add] at here
  obtain ⟨low, high, zeros⟩ := relocation_field here
  have front : (before.flatMap CodeEntry.bytes).length = sizeOf before := by
    rw [List.length_flatMap]
    rfl
  constructor
  · rw [List.flatMap_append, List.flatMap_cons, CodeEntry.bytes, List.drop_append, front,
      List.drop_eq_nil_of_le (by omega), List.nil_append, List.drop_append_of_le_length (by omega),
      List.take_append_of_le_length (by rw [List.length_drop]; omega), zeros]
  · intro s hs
    rw [sitesFrom_append, Nat.zero_add] at hs
    rcases List.mem_append.1 hs with hs | hs
    · have := (within_of_mem_sitesFrom hs).2
      omega
    · have := (within_of_mem_sitesFrom (n := sizeOf before + (CodeEntry.instruction i text).size) hs).1
      simp only [CodeEntry.size, CodeEntry.bytes] at this
      omega

/-! ## Entries that acts of writing leave -/

/-- **Entries trace the acts** that wrote them: their bytes without distances
are what was written, and their sites are the fields of the labels, in order,
with the distances that the jumps hold. -/
structure Traces (actions : List Action) (a : Assembly) : Prop where
  blank : a.entries.flatMap CodeEntry.blank = written actions
  fields : (sitesFrom 0 a.entries).map Site.field = fields actions
  labels : (sitesFrom 0 a.entries).map Site.label = List.range' 1 a.labels
  holds : ∀ s ∈ sitesFrom 0 a.entries, Holds actions s.label s.field s.distance

namespace Traces

variable {actions : List Action} {a b : Assembly}

theorem nil (keepListing : Bool) : Traces [] { keepListing } where
  blank := rfl
  fields := rfl
  labels := rfl
  holds := by simp [sitesFrom]

theorem size_eq (h : Traces actions a) : a.size = (written actions).length := by
  rw [← h.blank, List.length_flatMap, size, sizeOf]
  simp only [CodeEntry.length_blank]

/-- **The site of a label** has its field. -/
theorem mem_iff (h : Traces actions a) {label : Nat} {f : Field} :
    field? actions label = some f ↔ ∃ s ∈ sitesFrom 0 a.entries, s.label = label ∧ s.field = f := by
  have labels (i : Nat) (s : Site) (hi : (sitesFrom 0 a.entries)[i]? = some s) : s.label = i + 1 := by
    have at_ : ((sitesFrom 0 a.entries).map Site.label)[i]? = some s.label := by rw [List.getElem?_map, hi]; rfl
    rw [h.labels] at at_
    obtain ⟨lt, same⟩ := List.getElem?_eq_some_iff.1 at_
    rw [List.getElem_range'] at same
    omega
  constructor
  · intro given
    cases label with
    | zero => cases given
    | succ label =>
      have given : (Assembly.fields actions)[label]? = some f := given
      rw [← h.fields, List.getElem?_map] at given
      obtain ⟨s, hs, rfl⟩ := Option.map_eq_some_iff.1 given
      exact ⟨s, List.mem_of_getElem? hs, labels label s hs, rfl⟩
  · rintro ⟨s, hs, rfl, rfl⟩
    obtain ⟨i, hi⟩ := List.getElem?_of_mem hs
    rw [labels i s hi]
    change (Assembly.fields actions)[i]? = _
    rw [← h.fields, List.getElem?_map, hi]
    rfl

/-- **An entry that is no jump is written.** -/
theorem write (h : Traces actions a) {x : Action} {e : CodeEntry} (blank : e.blank = x.bytes)
    (noJump : ∀ start, sitesFrom start [e] = []) (noField : ∀ start, fieldsFrom start [x] = [])
    (noBind : ∀ l, x ≠ .bind l) : Traces (actions ++ [x]) (a.write e) := by
  have sites : sitesFrom 0 (a.entries ++ [e]) = sitesFrom 0 a.entries := by
    rw [sitesFrom_append, noJump, List.append_nil]
  refine ⟨?_, ?_, ?_, ?_⟩
  · simp [Assembly.write, written, h.blank, blank, List.flatMap_append] at *
  · rw [Assembly.write, sites, h.fields, fields_concat, noField, List.append_nil]
  · rw [Assembly.write, sites, h.labels]
  · rw [Assembly.write, sites]
    exact fun s hs => (h.holds s hs).concat fun binds => absurd binds (noBind _)

/-- **A jump is written** with a label of its own, which holds zero. -/
theorem jump (h : Traces actions a) (form : JumpForm) : Traces (actions ++ [.jump form]) (a.jump form).2 := by
  have sites : sitesFrom 0 (a.jump form).2.entries = sitesFrom 0 a.entries ++
      [⟨a.labels + 1, ⟨(written actions).length + form.header.length, form.width⟩, 0⟩] := by
    rw [← h.size_eq]
    exact (sitesFrom_append _ _ _).trans (by rw [Nat.zero_add]; rfl)
  refine ⟨?_, ?_, ?_, ?_⟩
  · simp [Assembly.jump, written, h.blank, List.flatMap_append, CodeEntry.blank, Action.bytes]
  · rw [sites, List.map_append, h.fields, fields_concat]
    rfl
  · rw [sites, List.map_append, h.labels, List.map_singleton, Nat.add_comm a.labels]
    exact List.range'_1_concat.symm
  · rw [sites]
    intro s hs
    rcases List.mem_append.1 hs with hs | hs
    · exact (h.holds s hs).concat (by rintro ⟨⟩)
    · obtain rfl := List.mem_singleton.1 hs
      refine .inr ⟨fun i binds => ?_, rfl⟩
      rcases binds_concat.1 binds with binds | ⟨-, other, -⟩
      · -- Nothing binds a label before it is given out.
        have known := field?_append binds.given (actions.drop i)
        rw [List.take_append_drop] at known
        obtain ⟨s, hs, label, -⟩ := h.mem_iff.1 known
        have member := List.mem_map_of_mem (f := Site.label) hs
        rw [h.labels, List.mem_range'_1, label] at member
        exact absurd member.2 (Nat.not_lt.2 (Nat.le_of_eq (Nat.add_comm 1 a.labels)))
      · cases other

/-- **What binding a label comes to.** -/
theorem bind_given (h : Traces actions a) {label : Nat} {f : Field} (given : field? actions label = some f) :
    a.bind label = if f.reaches (written actions).length then
        .ok { a with entries := a.entries.map (setDistance label (f.distance (written actions).length)) ++ [.mark label] }
      else .error (.layout (if f.width = 1 then .shortJump (f.distance (written actions).length)
        else .longJump (f.distance (written actions).length))) := by
  obtain ⟨s', hs', label', field'⟩ := h.mem_iff.1 given
  rcases findJump?_sites label a.entries 0 with ⟨-, others⟩ | ⟨form, s, hs, rfl, width, found⟩
  · exact absurd label' (others s' hs')
  · have same : s.field = f := Option.some.inj ((h.mem_iff.2 ⟨s, hs, rfl, rfl⟩).symm.trans given)
    rw [same] at found width
    rw [Assembly.bind, found]
    simp only [h.size_eq, ← width]
    rfl

/-- Nothing comes of binding a label that has not been given out. -/
theorem bind_unknown (h : Traces actions a) {label : Nat} (unknown : field? actions label = none) :
    a.bind label = .ok a := by
  rcases findJump?_sites label a.entries 0 with ⟨none, -⟩ | ⟨form, s, hs, rfl, -, -⟩
  · rw [Assembly.bind, none]
  · rw [h.mem_iff.2 ⟨s, hs, rfl, rfl⟩] at unknown
    cases unknown

/-- A binding that is refused, or of no jump, leaves what the entries trace. -/
theorem idle (h : Traces actions a) {label : Nat}
    (refused : ∀ f, field? actions label = some f → f.reaches (written actions).length = false) :
    Traces (actions ++ [.bind label]) a := by
  refine ⟨?_, ?_, h.labels, fun s hs => (h.holds s hs).concat fun binds => ?_⟩
  · simp [h.blank, written, Action.bytes]
  · rw [h.fields, fields_concat]
    exact (List.append_nil _).symm
  · cases binds
    exact refused _ (h.mem_iff.2 ⟨s, hs, rfl, rfl⟩)

/-- **A binding changes the distance of one site.** -/
theorem bound (h : Traces actions a) {label : Nat} {f : Field} (given : field? actions label = some f)
    (reaches : f.reaches (written actions).length = true) : Traces (actions ++ [.bind label])
      { a with entries := a.entries.map (setDistance label (f.distance (written actions).length)) ++ [.mark label] } := by
  have sites := sitesFrom_bound label (f.distance (written actions).length) a.entries 0
  refine ⟨?_, ?_, ?_, ?_⟩
  · simp only [List.flatMap_append, List.flatMap_map, CodeEntry.blank_setDistance, h.blank, written]
    rfl
  · rw [sites, List.map_map, fields_concat, ← h.fields]
    refine (List.map_congr_left fun s _ => Site.bound_field label _ s).trans (List.append_nil _).symm
  · rw [sites, List.map_map, ← h.labels]
    exact List.map_congr_left fun s _ => Site.bound_label label _ s
  · rw [sites]
    intro s' hs'
    obtain ⟨s, hs, rfl⟩ := List.mem_map.1 hs'
    rw [Site.bound_label, Site.bound_field, Site.bound]
    split
    · next same =>
      have field : s.field = f := Option.some.inj ((h.mem_iff.2 ⟨s, hs, same, rfl⟩).symm.trans given)
      rw [same, field]
      exact holds_bind given reaches
    · next other =>
      exact (h.holds s hs).concat fun binds => by
        cases binds
        exact absurd rfl other

/-- **One act of writing**, whether it is refused or not. -/
theorem step (h : Traces actions a) (x : Action) : Traces (actions ++ [x]) (a.afterAll [x]) := by
  cases x with
  | emit i text => exact h.write rfl (fun _ => rfl) (fun _ => rfl) (by rintro _ ⟨⟩)
  | raw bytes text => exact h.write rfl (fun _ => rfl) (fun _ => rfl) (by rintro _ ⟨⟩)
  | ret => exact h.write rfl (fun _ => rfl) (fun _ => rfl) (by rintro _ ⟨⟩)
  | cdq => exact h.write rfl (fun _ => rfl) (fun _ => rfl) (by rintro _ ⟨⟩)
  | call target => exact h.write (by rfl) (fun _ => rfl) (fun _ => rfl) (by rintro _ ⟨⟩)
  | jump form => exact h.jump form
  | bind label =>
    simp only [afterAll, List.foldl_cons, List.foldl_nil, Assembly.step]
    cases given : field? actions label with
    | none =>
      rw [h.bind_unknown given]
      exact h.idle fun f known => by
        rw [given] at known
        cases known
    | some f =>
      rw [h.bind_given given]
      split
      · next run =>
        split at run
        · next reaches =>
          cases run
          exact h.bound given reaches
        · cases run
      · next run =>
        split at run
        · cases run
        · next refused =>
          refine h.idle fun g known => ?_
          obtain rfl := Option.some.inj (given.symm.trans known)
          exact Bool.eq_false_iff.2 refused

end Traces

/-- Acts of writing go on where earlier ones ended. -/
theorem afterAll_append (a : Assembly) (xs ys : List Action) :
    a.afterAll (xs ++ ys) = (a.afterAll xs).afterAll ys := List.foldl_append ..

/-- **All acts of writing** are traced. -/
theorem Traces.afterAll {actions : List Action} {a : Assembly} (h : Traces actions a) (more : List Action) :
    Traces (actions ++ more) (a.afterAll more) := by
  induction more generalizing actions a with
  | nil => rwa [List.append_nil]
  | cons x more ih =>
    have later := ih (h.step x)
    rwa [List.append_assoc, ← afterAll_append] at later

end Assembly

end Shading
