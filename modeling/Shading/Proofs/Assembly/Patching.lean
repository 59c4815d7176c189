import Shading.Assembly.Buffer
import Shading.Proofs.Assembly.Sites

/-!
# Binding a site patches one field

A `CodeBuffer` holds bytes, and binding a site overwrites some of them. It
follows the entries of an `Assembly` step by step (`Assembly.Traces.next`): the
bytes, references and lines of the one are views of the other, and a field that
is overwritten is the distance of one jump among the entries. So after any acts
of writing the bytes are those that were written, but for the fields of jumps,
which hold the distances of their last bindings (`CodeBuffer.Patched`). A
binding that is refused leaves the buffer as it is, and goes on nowhere else.
-/

namespace Shading

/-! ## Overwriting -/

section Overwrite

variable {bytes bytes' new : List UInt8} {position : Nat}

/-- Bytes in front of what is overwritten, and behind it, stay. -/
theorem getElem?_overwrite {k : Nat} (room : position + new.length ≤ bytes.length)
    (outside : ¬ (position ≤ k ∧ k < position + new.length)) : (overwrite bytes position new)[k]? = bytes[k]? := by
  have front : (bytes.take position).length = position := by
    rw [List.length_take]
    omega
  rw [overwrite, List.append_assoc]
  rcases Nat.lt_or_ge k position with before | behind
  · rw [List.getElem?_append_left (by omega), List.getElem?_take, if_pos before]
  · rw [List.getElem?_append_right (by omega), List.getElem?_append_right (by omega), front, List.getElem?_drop]
    congr 1
    omega

/-- What is overwritten holds the new bytes. -/
theorem take_drop_overwrite (room : position + new.length ≤ bytes.length) :
    ((overwrite bytes position new).drop position).take new.length = new := by
  have front : (bytes.take position).length = position := by
    rw [List.length_take]
    omega
  rw [overwrite, List.append_assoc, List.drop_left' front, List.take_left]

/-- **Overwriting is told by its field**: the new bytes stand there, and all
others stay. -/
theorem eq_overwrite (room : position + new.length ≤ bytes.length)
    (outside : ∀ k, ¬ (position ≤ k ∧ k < position + new.length) → bytes'[k]? = bytes[k]?)
    (inside : (bytes'.drop position).take new.length = new) : bytes' = overwrite bytes position new := by
  refine List.ext_getElem? fun k => ?_
  by_cases here : position ≤ k ∧ k < position + new.length
  · obtain ⟨j, rfl⟩ := Nat.exists_eq_add_of_le here.1
    have within (xs : List UInt8) : ((xs.drop position).take new.length)[j]? = xs[position + j]? := by
      rw [List.getElem?_take, if_pos (by omega), List.getElem?_drop]
    rw [← within, ← within, inside, take_drop_overwrite room]
  · rw [outside k here, getElem?_overwrite room here]

end Overwrite

/-- The field of a site. -/
def PatchSite.field (site : PatchSite) : Field := ⟨site.position, site.width⟩

/-! ## Binding -/

namespace CodeBuffer

open Assembly (Action written field? Holds)

variable {b : CodeBuffer} {site : PatchSite}

/-- A buffer with one more line, if it keeps them. -/
def noted (b : CodeBuffer) (text : String) : CodeBuffer :=
  if b.keepListing then { b with listing := b.listing ++ [text] } else b

/-- **A buffer in which a site is bound** to the end of the code. -/
def bound (b : CodeBuffer) (site : PatchSite) : CodeBuffer :=
  noted { b with
    code := overwrite b.code site.position
      (littleEndian site.width (wordOfInt (site.field.distance b.code.length))) }
    (CodeEntry.labelText site.label ++ ":")

/-- Why a site is not bound. -/
def refusal (b : CodeBuffer) (site : PatchSite) : Error :=
  .layout (if site.width = 1 then .shortJump (site.field.distance b.code.length)
    else .longJump (site.field.distance b.code.length))


/-- A distance that its field can hold is written there. -/
theorem patch_of_fits {position width : Nat} {distance : Int} {fault : LayoutFault}
    (fits : fitsSigned (8 * width) distance = true) : patch position width distance fault b =
      .ok () { b with code := overwrite b.code position (littleEndian width (wordOfInt distance)) } := by
  unfold patch
  rw [if_pos fits]
  rfl

/-- Any other distance is refused before a byte is written. -/
theorem patch_of_not_fits {position width : Nat} {distance : Int} {fault : LayoutFault}
    (fits : ¬ fitsSigned (8 * width) distance = true) :
    patch position width distance fault b = .error (.layout fault) b := by
  unfold patch
  rw [if_neg fits]
  rfl

/-- A field is patched, and a line noted. -/
theorem patch_note (width : Nat) (fault : LayoutFault) (text : String) :
    (patch site.position width (site.field.distance b.code.length) fault >>= fun _ => note text) b =
      if fitsSigned (8 * width) (site.field.distance b.code.length) then
        .ok () (noted { b with
          code := overwrite b.code site.position
            (littleEndian width (wordOfInt (site.field.distance b.code.length))) } text)
      else .error (.layout fault) b := by
  change EStateM.bind _ _ b = _
  split
  · next fits =>
    simp only [EStateM.bind, patch_of_fits fits]
    rfl
  · next fits => simp only [EStateM.bind, patch_of_not_fits fits]

/-- **A site is bound** if its field can hold the distance, and else the buffer
stays as it is. -/
theorem bind_eq (width : site.width = 1 ∨ site.width = 4) :
    bind site b = if site.field.reaches b.code.length then .ok () (b.bound site) else .error (b.refusal site) b := by
  obtain ⟨position, w, label⟩ := site
  rcases width with rfl | rfl
  · exact patch_note 1 _ _
  · exact patch_note 4 _ _

/-- Binding among some sites gives them out again. -/
theorem next_bind {sites : List PatchSite} {label : Nat} : next (b, sites) (.bind label) =
    resume sites (EStateM.bind (bindAmong sites label) (fun _ => EStateM.pure sites) b) := rfl

/-- A label whose site is not at hand is passed over. -/
theorem next_bind_of_none {sites : List PatchSite} {label : Nat}
    (none : sites.find? (fun site => site.label == label) = none) : next (b, sites) (.bind label) = (b, sites) := by
  rw [next_bind, bindAmong, none]
  rfl

/-- A label is bound at its site. -/
theorem next_bind_of_some {sites : List PatchSite} {label : Nat}
    (found : sites.find? (fun site => site.label == label) = some site) (width : site.width = 1 ∨ site.width = 4) :
    next (b, sites) (.bind label) = (if site.field.reaches b.code.length then b.bound site else b, sites) := by
  have among : bindAmong sites label = bind site := by rw [bindAmong, found]
  rw [next_bind, among]
  by_cases reaches : site.field.reaches b.code.length = true
  · rw [EStateM.bind, bind_eq width, if_pos reaches, if_pos reaches]
    rfl
  · rw [EStateM.bind, bind_eq width, if_neg reaches, if_neg reaches]
    rfl

end CodeBuffer

/-! ## The buffer that entries stand for -/

namespace Assembly

variable {actions : List Action} {a : Assembly}

/-- **The buffer of assembled code.** -/
def buffer (a : Assembly) : CodeBuffer :=
  { keepListing := a.keepListing, code := a.code, relocations := a.relocations, listing := a.listing,
    labels := a.labels }

/-- The site of a jump as it is given out. -/
def Site.patch (s : Site) : PatchSite := ⟨s.field.start, s.field.width, s.label⟩

/-- The sites of the jumps among the entries. -/
def patchSites (a : Assembly) : List PatchSite := (sitesFrom 0 a.entries).map Site.patch

theorem relocationsFrom_append (xs ys : List CodeEntry) (start : Nat) :
    relocationsFrom start (xs ++ ys) = relocationsFrom start xs ++ relocationsFrom (start + sizeOf xs) ys := by
  induction xs generalizing start with
  | nil => rfl
  | cons e es ih =>
    have total : start + e.size + sizeOf es = start + sizeOf (e :: es) := by rw [sizeOf_cons, Nat.add_assoc]
    cases e <;> simp [relocationsFrom, ih, total, List.append_assoc]

/-- An entry that is written adds its bytes, its reference and its line. -/
theorem buffer_write (a : Assembly) (e : CodeEntry) (labels : Nat) :
    buffer { a with entries := a.entries ++ [e], labels } = CodeBuffer.noted { a.buffer with
      code := a.code ++ e.bytes
      relocations := a.relocations ++ relocationsFrom a.code.length [e]
      labels } e.text := by
  have code : ({ a with entries := a.entries ++ [e], labels } : Assembly).code = a.code ++ e.bytes := by
    simp [Assembly.code, List.flatMap_append]
  have relocations : ({ a with entries := a.entries ++ [e], labels } : Assembly).relocations =
      a.relocations ++ relocationsFrom a.code.length [e] := by
    rw [Assembly.relocations, relocationsFrom_append, Nat.zero_add, length_code]
    rfl
  rw [buffer, code, relocations, CodeBuffer.noted]
  unfold buffer listing
  cases a.keepListing <;> simp

/-- Relocations do not depend on distances. -/
theorem relocationsFrom_setDistance (label : Nat) (d : Int) (es : List CodeEntry) (start : Nat) :
    relocationsFrom start (es.map (setDistance label d)) = relocationsFrom start es := by
  induction es generalizing start with
  | nil => rfl
  | cons e es ih =>
    have later := ih (start + e.size)
    cases e with
    | jump form l d' =>
      refine Eq.trans ?_ later
      change relocationsFrom (start + (setDistance label d (.jump form l d')).size) _ = _
      rw [CodeEntry.size_setDistance]
    | instruction i text => exact congrArg ((i.relocation? start).toList ++ ·) later
    | _ => exact later

/-- A site has a field of one byte or four. -/
theorem width_of_mem_sitesFrom {s : Site} {es : List CodeEntry} {start : Nat} (h : s ∈ sitesFrom start es) :
    s.field.width = 1 ∨ s.field.width = 4 := by
  obtain ⟨before, form, after, -, field⟩ := exists_of_mem_sitesFrom h
  rw [field]
  cases form
  · exact .inr rfl
  · exact .inr rfl
  · exact .inl rfl

/-- A site given out has a field of one byte or four. -/
theorem width_of_mem_patchSites {site : PatchSite} (mem : site ∈ a.patchSites) : site.width = 1 ∨ site.width = 4 := by
  obtain ⟨s, hs, rfl⟩ := List.mem_map.1 mem
  exact width_of_mem_sitesFrom hs

/-- The line of a jump does not tell its distance. -/
theorem text_setDistance (label : Nat) (d : Int) (e : CodeEntry) : (setDistance label d e).text = e.text := by
  cases e <;> rfl

/-- An entry that is no jump leaves the sites. -/
theorem patchSites_write (a : Assembly) {e : CodeEntry} (none : ∀ start, sitesFrom start [e] = []) :
    (a.write e).patchSites = a.patchSites := by
  rw [patchSites, Assembly.write, sitesFrom_append, none, List.append_nil]
  rfl

/-- A buffer to which bytes and a line were added is that of the entries with
one more, if it neither jumps nor refers to global memory. -/
theorem eq_write {e : CodeEntry} {b : CodeBuffer} (none : ∀ start, sitesFrom start [e] = [])
    (quiet : ∀ start, relocationsFrom start [e] = [])
    (wrote : b = CodeBuffer.noted { a.buffer with code := a.code ++ e.bytes } e.text) :
    (b, a.patchSites) = ((a.write e).buffer, (a.write e).patchSites) := by
  have written := buffer_write a e a.labels
  rw [quiet, List.append_nil] at written
  rw [patchSites_write a none, wrote]
  exact congrArg (·, _) written.symm

/-- A jump is written with a zero distance, and its site is given out. -/
theorem next_jump (a : Assembly) (form : JumpForm) :
    CodeBuffer.next (a.buffer, a.patchSites) (.jump form) = ((a.jump form).2.buffer, (a.jump form).2.patchSites) := by
  have zeros : littleEndian form.width (wordOfInt 0) = List.replicate form.width 0 := by cases form <;> rfl
  have written := buffer_write a (.jump form (a.labels + 1) 0) (a.labels + 1)
  have sites : (a.jump form).2.patchSites =
      a.patchSites ++ [⟨(a.code ++ form.header).length, form.width, a.labels + 1⟩] := by
    rw [patchSites, Assembly.jump, sitesFrom_append, List.map_append, List.length_append, length_code, Nat.zero_add]
    rfl
  rw [sites]
  refine congrArg (·, _) (Eq.trans ?_ written.symm)
  rw [CodeEntry.bytes, zeros, ← List.append_assoc]
  change CodeBuffer.noted { a.buffer with code := a.code ++ form.header ++ List.replicate form.width 0,
                                          labels := a.labels + 1 } _ = _
  rw [show relocationsFrom a.code.length [CodeEntry.jump form (a.labels + 1) 0] = [] from rfl, List.append_nil]
  rfl

/-- Binding a label leaves the sites. -/
theorem patchSites_bound (a : Assembly) (label : Nat) (d : Int) :
    patchSites { a with entries := a.entries.map (setDistance label d) ++ [.mark label] } = a.patchSites := by
  rw [patchSites, sitesFrom_bound, List.map_map]
  refine List.map_congr_left fun s _ => ?_
  rw [Function.comp_apply, Site.patch, Site.bound_field, Site.bound_label]
  rfl

namespace Traces

/-- The bytes of entries whose distances are set for one label are those of the
entries outside of its field. -/
theorem bound_outside (h : Traces actions a) {label : Nat} {f : Field} (given : field? actions label = some f) (d : Int)
    {k : Nat} (outside : ¬ f.Contains k) :
    ((a.entries.map (setDistance label d)).flatMap CodeEntry.bytes)[k]? = a.code[k]? := by
  rw [List.flatMap_map]
  refine (code_outside (p := (· = label)) (n := 0) (CodeEntry.size_setDistance label d)
    (fun _ _ _ => List.prefix_append _ _) (fun e plain => ?_) fun s hs same => ?_).symm
  · cases e with
    | jump form l d' => rw [setDistance, if_neg (plain l rfl)]
    | _ => rfl
  · have field : s.field = f := Option.some.inj ((h.mem_iff.2 ⟨s, hs, same, rfl⟩).symm.trans given)
    rwa [Nat.zero_add, field]

/-- The field of a label lies in the code. -/
theorem stop_le (h : Traces actions a) {label : Nat} {f : Field} (given : field? actions label = some f) :
    f.stop ≤ a.code.length := by
  obtain ⟨s, hs, rfl, rfl⟩ := h.mem_iff.1 given
  have := (within_of_mem_sitesFrom hs).2
  rwa [Nat.zero_add, ← Assembly.size, ← Assembly.length_code] at this

/-- **Setting a distance overwrites a field** of the bytes. -/
theorem code_setDistance (h : Traces actions a) {label : Nat} {f : Field} (given : field? actions label = some f)
    (d : Int) :
    (a.entries.map (setDistance label d)).flatMap CodeEntry.bytes =
      overwrite a.code f.start (littleEndian f.width (wordOfInt d)) := by
  have length : (littleEndian f.width (wordOfInt d)).length = f.width := length_littleEndian _ _
  refine eq_overwrite (by rw [length]; exact h.stop_le given) (fun k outside => h.bound_outside given d ?_) ?_
  · rwa [length] at outside
  · obtain ⟨s, hs, same, rfl⟩ := h.mem_iff.1 given
    have bound : { s with distance := d } ∈ sitesFrom 0 (a.entries.map (setDistance label d)) := by
      rw [sitesFrom_setDistance]
      exact List.mem_map.2 ⟨s, hs, if_pos same⟩
    rw [length]
    exact code_of_site bound

/-- The site of a label is the one given out for it. -/
theorem find?_patchSites (h : Traces actions a) (label : Nat) : a.patchSites.find? (fun site => site.label == label) =
    (field? actions label).map fun f => ⟨f.start, f.width, label⟩ := by
  cases given : field? actions label with
  | none =>
    refine List.find?_eq_none.2 fun site mem => ?_
    obtain ⟨s, hs, rfl⟩ := List.mem_map.1 mem
    intro same
    have known := h.mem_iff.2 ⟨s, hs, beq_iff_eq.1 same, rfl⟩
    rw [given] at known
    cases known
  | some f =>
    obtain ⟨s, hs, rfl, rfl⟩ := h.mem_iff.1 given
    cases found : a.patchSites.find? (fun site => site.label == s.label) with
    | none => exact absurd (List.find?_eq_none.1 found _ (List.mem_map_of_mem hs)) (by simp [Site.patch])
    | some site =>
      obtain ⟨s', hs', rfl⟩ := List.mem_map.1 (List.mem_of_find?_eq_some found)
      have same : s'.label = s.label := beq_iff_eq.1 (List.find?_some found :)
      have field : s'.field = s.field := Option.some.inj ((h.mem_iff.2 ⟨s', hs', same, rfl⟩).symm.trans given)
      simp [Site.patch, same, field]

/-- The buffer of entries in which a label is bound. -/
theorem buffer_bound (h : Traces actions a) {label : Nat} {f : Field} (given : field? actions label = some f) :
    buffer { a with entries := a.entries.map (setDistance label (f.distance a.code.length)) ++ [.mark label] } =
      a.buffer.bound ⟨f.start, f.width, label⟩ := by
  let placed : Assembly := { a with entries := a.entries.map (setDistance label (f.distance a.code.length)) }
  have code : placed.code = overwrite a.code f.start (littleEndian f.width (wordOfInt (f.distance a.code.length))) :=
    h.code_setDistance given _
  have relocations : placed.relocations = a.relocations := relocationsFrom_setDistance label _ _ _
  have listing : placed.listing = a.listing := by
    simp only [placed, Assembly.listing, List.map_map, Function.comp_def, text_setDistance]
  refine (buffer_write placed (.mark label) a.labels).trans ?_
  have quiet : relocationsFrom placed.code.length [.mark label] = [] := rfl
  rw [quiet, List.append_nil, CodeEntry.bytes, List.append_nil, buffer, code, relocations, listing]
  rfl

/-- Binding a label binds its site. -/
theorem next_bind (h : Traces actions a) (label : Nat) : CodeBuffer.next (a.buffer, a.patchSites) (.bind label) =
    ((a.afterAll [.bind label]).buffer, (a.afterAll [.bind label]).patchSites) := by
  rw [Assembly.afterAll, List.foldl_cons, List.foldl_nil, Assembly.step]
  cases given : field? actions label with
  | none =>
    rw [CodeBuffer.next_bind_of_none (by rw [h.find?_patchSites, given]; rfl), h.bind_unknown given]
  | some f =>
    have width : f.width = 1 ∨ f.width = 4 := by
      obtain ⟨s, hs, -, rfl⟩ := h.mem_iff.1 given
      exact width_of_mem_sitesFrom hs
    have size : (written actions).length = a.code.length := by rw [← h.size_eq, ← length_code]
    have found : a.patchSites.find? (fun site => site.label == label) = some ⟨f.start, f.width, label⟩ := by
      rw [h.find?_patchSites, given]
      rfl
    rw [CodeBuffer.next_bind_of_some found width, h.bind_given given, size]
    by_cases reaches : f.reaches a.code.length = true
    · rw [if_pos reaches, if_pos (by exact reaches)]
      exact Prod.ext (h.buffer_bound given).symm (patchSites_bound a label _).symm
    · rw [if_neg reaches, if_neg (by exact reaches)]

/-- **One act of writing** does the same to the bytes as to the entries. -/
theorem next (h : Traces actions a) (x : Action) :
    CodeBuffer.next (a.buffer, a.patchSites) x = ((a.afterAll [x]).buffer, (a.afterAll [x]).patchSites) := by
  cases x with
  | emit i text =>
    refine Eq.trans ?_ (congrArg (_, ·) (patchSites_write a fun _ => rfl).symm)
    refine congrArg (·, _) (Eq.trans ?_ (buffer_write a (.instruction i text) a.labels).symm)
    rw [relocationsFrom, relocationsFrom, List.append_nil]
    rfl
  | raw bytes text => exact eq_write (fun _ => rfl) (fun _ => rfl) rfl
  | ret => exact eq_write (fun _ => rfl) (fun _ => rfl) rfl
  | cdq => exact eq_write (fun _ => rfl) (fun _ => rfl) rfl
  | call target =>
    refine eq_write (e := .call target) (fun _ => rfl) (fun _ => rfl) ?_
    change CodeBuffer.noted { a.buffer with code := a.code ++ [0xE8] ++ [0, 0, 0, 0] } _ = _
    rw [List.append_assoc]
    rfl
  | jump form => exact next_jump a form
  | bind label => exact h.next_bind label

/-- **All acts of writing** do the same to the bytes as to the entries. -/
theorem buffer_afterAll (h : Traces actions a) (more : List Action) :
    more.foldl CodeBuffer.next (a.buffer, a.patchSites) = ((a.afterAll more).buffer, (a.afterAll more).patchSites) := by
  induction more generalizing actions a with
  | nil => rfl
  | cons x more ih =>
    rw [List.foldl_cons, h.next x]
    exact ih (h.step x)

/-! ## The bytes that acts of writing leave -/

/-- What a label holds stands in its field. -/
theorem inside (h : Traces actions a) {label : Nat} {f : Field} (given : field? actions label = some f) :
    f.stop ≤ a.code.length ∧ ∃ d, Holds actions label f d ∧
      (a.code.drop f.start).take f.width = littleEndian f.width (wordOfInt d) := by
  refine ⟨h.stop_le given, ?_⟩
  obtain ⟨s, hs, rfl, rfl⟩ := h.mem_iff.1 given
  exact ⟨s.distance, h.holds s hs, code_of_site hs⟩

/-- Bytes that no field contains are those that were written. -/
theorem outside (h : Traces actions a) {k : Nat}
    (outside : ∀ label f, field? actions label = some f → ¬ f.Contains k) : a.code[k]? = (written actions)[k]? := by
  rw [← h.blank]
  refine code_outside (p := fun _ => True) (n := 0) CodeEntry.length_blank (fun _ _ _ => List.prefix_append _ _)
    (fun e plain => ?_) fun s hs _ => ?_
  · cases e with
    | jump form l d => exact absurd trivial (plain l rfl)
    | _ => rfl
  · rw [Nat.zero_add]
    exact outside s.label s.field (h.mem_iff.2 ⟨s, hs, rfl, rfl⟩)

/-- Fields are those of the labels in order, which lie apart. -/
theorem apart (h : Traces actions a) {label label' : Nat} {f f' : Field}
    (given : field? actions label = some f) (given' : field? actions label' = some f') (lt : label < label') :
    f.stop ≤ f'.start := by
  obtain ⟨i, rfl⟩ : ∃ i, label = i + 1 := ⟨label - 1, by
    cases label with
    | zero => cases given
    | succ i => rfl⟩
  obtain ⟨j, rfl⟩ : ∃ j, label' = j + 1 := ⟨label' - 1, by omega⟩
  have given : (Assembly.fields actions)[i]? = some f := given
  have given' : (Assembly.fields actions)[j]? = some f' := given'
  obtain ⟨hi, rfl⟩ := List.getElem?_eq_some_iff.1 given
  obtain ⟨hj, rfl⟩ := List.getElem?_eq_some_iff.1 given'
  have ordered : (Assembly.fields actions).Pairwise fun f f' => f.stop ≤ f'.start := by
    rw [← h.fields]
    exact List.pairwise_map.2 (pairwise_sitesFrom _ 0)
  exact List.pairwise_iff_getElem.1 ordered i j hi hj (by omega)

/-- The sites given out are those of the labels. -/
theorem mem_patchSites (h : Traces actions a) {site : PatchSite} :
    site ∈ a.patchSites ↔ field? actions site.label = some site.field := by
  constructor
  · intro mem
    obtain ⟨s, hs, rfl⟩ := List.mem_map.1 mem
    exact h.mem_iff.2 ⟨s, hs, rfl, rfl⟩
  · intro given
    obtain ⟨s, hs, same, field⟩ := h.mem_iff.1 given
    refine List.mem_map.2 ⟨s, hs, ?_⟩
    rw [Site.patch, same, field]
    rfl

end Traces

end Assembly

/-! ## Any acts of writing -/

namespace CodeBuffer

open Assembly (Action written field? Holds)

variable {b : CodeBuffer} {site : PatchSite}

/-- **Bytes that were written and patched.** -/
structure Patched (actions : List Action) (b : CodeBuffer) (sites : List PatchSite) : Prop where
  length : b.code.length = (written actions).length
  /-- Outside of the fields of jumps stands what was written. -/
  outside : ∀ k, (∀ label f, field? actions label = some f → ¬ f.Contains k) → b.code[k]? = (written actions)[k]?
  /-- In the field of a jump stands the distance that it holds. -/
  inside : ∀ label f, field? actions label = some f → f.stop ≤ b.code.length ∧
    ∃ d, Holds actions label f d ∧ (b.code.drop f.start).take f.width = littleEndian f.width (wordOfInt d)
  /-- Fields of different labels lie apart. -/
  apart : ∀ label label' f f', field? actions label = some f → field? actions label' = some f' → label < label' →
    f.stop ≤ f'.start
  /-- Open references stand for zeros, and lie apart from all fields. -/
  relocations : ∀ r ∈ b.relocations, (b.code.drop r.position).take 4 = [0, 0, 0, 0] ∧
    ∀ label f, field? actions label = some f → r.position + 4 ≤ f.start ∨ f.stop ≤ r.position
  /-- The sites given out are the fields of the jumps. -/
  given : ∀ site, site ∈ sites ↔ field? actions site.label = some site.field
  /-- Binding a site changes the bytes of its own field, and adds a line. -/
  bound : ∀ site ∈ sites, site.field.reaches b.code.length = true → ∃ b', bind site b = .ok () b' ∧
    (b'.code.drop site.position).take site.width =
      littleEndian site.width (wordOfInt (site.field.distance b.code.length)) ∧
    (∀ k, ¬ site.field.Contains k → b'.code[k]? = b.code[k]?) ∧ b'.relocations = b.relocations ∧
    b'.labels = b.labels ∧ b'.keepListing = b.keepListing ∧
    b'.listing = b.listing ++ if b.keepListing then [CodeEntry.labelText site.label ++ ":"] else []
  /-- A distance that the field cannot hold is refused, and leaves the buffer
  as it was. -/
  refused : ∀ site ∈ sites, site.field.reaches b.code.length = false →
    bind site b = .error (.layout (if site.width = 1 then .shortJump (site.field.distance b.code.length)
      else .longJump (site.field.distance b.code.length))) b

/-- A line more leaves all but the lines. -/
theorem noted_eq (b : CodeBuffer) (text : String) :
    b.noted text = { b with listing := b.listing ++ if b.keepListing then [text] else [] } := by
  rw [noted]
  split
  · rfl
  · rw [List.append_nil]

/-- Binding a site within the code changes its own field alone. -/
theorem code_bound (room : site.field.stop ≤ b.code.length) :
    ((b.bound site).code.drop site.position).take site.width =
      littleEndian site.width (wordOfInt (site.field.distance b.code.length)) ∧
    ∀ k, ¬ site.field.Contains k → (b.bound site).code[k]? = b.code[k]? := by
  have width : (littleEndian site.width (wordOfInt (site.field.distance b.code.length))).length = site.width :=
    length_littleEndian _ _
  have room : site.position + (littleEndian site.width
      (wordOfInt (site.field.distance b.code.length))).length ≤ b.code.length := by rwa [width]
  rw [bound, noted_eq]
  refine ⟨?_, fun k outside => getElem?_overwrite room (by rwa [width])⟩
  have field := take_drop_overwrite room
  rwa [width] at field

/-- **Patching touches its own field alone.** After any acts of writing, with
sites bound any number of times and in any order, the code is what was written,
with the distance that each jump holds in its field. -/
theorem patched_afterAll (keepListing : Bool) (actions : List Action) :
    Patched actions (CodeBuffer.afterAll { keepListing } actions).1
      (CodeBuffer.afterAll { keepListing } actions).2 := by
  have h : Assembly.Traces actions (Assembly.afterAll { keepListing } actions) :=
    (Assembly.Traces.nil keepListing).afterAll actions
  have start : (({ keepListing } : Assembly).buffer, ({ keepListing } : Assembly).patchSites) =
      (({ keepListing } : CodeBuffer), ([] : List PatchSite)) := by cases keepListing <;> rfl
  have run := (Assembly.Traces.nil keepListing).buffer_afterAll actions
  rw [start] at run
  rw [CodeBuffer.afterAll, run]
  generalize Assembly.afterAll { keepListing } actions = a at h
  have length : a.code.length = (written actions).length := by rw [Assembly.length_code, h.size_eq]
  refine ⟨length, fun k => h.outside, fun label f => h.inside, fun label label' f f' => h.apart,
    fun r hr => ?_, fun site => h.mem_patchSites, fun site mem reaches => ?_, fun site mem refused => ?_⟩
  · obtain ⟨zeros, apart⟩ := Assembly.code_of_relocation hr
    refine ⟨zeros, fun label f given => ?_⟩
    obtain ⟨s, hs, -, rfl⟩ := h.mem_iff.1 given
    exact apart s hs
  · obtain ⟨field, others⟩ := code_bound (b := a.buffer) (h.stop_le (h.mem_patchSites.1 mem))
    have answer := bind_eq (b := a.buffer) (Assembly.width_of_mem_patchSites mem)
    rw [if_pos reaches] at answer
    refine ⟨_, answer, field, others, ?_⟩
    rw [bound, noted_eq]
    exact ⟨rfl, rfl, rfl, rfl⟩
  · have answer := bind_eq (b := a.buffer) (Assembly.width_of_mem_patchSites mem)
    rwa [if_neg (Bool.eq_false_iff.1 refused)] at answer

/-- A label that is bound twice is bound to where it was bound last. -/
example : (CodeBuffer.afterAll { keepListing := false } [.jump (.when .greaterEqual), .bind 1, .ret, .bind 1]).1.code =
    [0x0F, 0x8D, 1, 0, 0, 0, 0xC3] := by decide

end CodeBuffer

end Shading
