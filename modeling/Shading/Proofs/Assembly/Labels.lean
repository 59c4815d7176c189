import Shading.Assembly

/-!
# Labels in assembled code

A label belongs to one jump and is bound at most once, behind that jump,
and binding it sets the distance of the jump to the number of bytes
between the two. `Assembly.Sound` states this of the code at hand, by
the numbers of its entries, so that it speaks of code before and after a
binding in the same way.

`Assembly.Leads a a'` says that `a'` continues `a`: what was written
stays as it is, and new labels have new numbers. A label is *open* in
code that has its jump and not yet its mark. Bindings of labels that are
younger than some code leave that code untouched, which is why whole
constructs with jumps among their own entries continue what is before
them (`Leads.bind`).
-/

namespace Shading

namespace CodeEntry

/-- The label of a jump. -/
def jump? : CodeEntry → Option Nat
  | jump _ l _ => some l
  | _ => none

/-- The label that is bound at an entry. -/
def mark? : CodeEntry → Option Nat
  | mark l => some l
  | _ => none

theorem mark?_eq_some {e : CodeEntry} {l : Nat} : e.mark? = some l ↔ e = .mark l := by
  cases e <;> simp [mark?]

/-- Neither a jump nor a mark. -/
def isPlain (e : CodeEntry) : Prop := e.jump? = none ∧ e.mark? = none

@[simp] theorem jump?_setDistance (l : Nat) (d : Int) (e : CodeEntry) :
    (Assembly.setDistance l d e).jump? = e.jump? := by cases e <;> rfl

@[simp] theorem mark?_setDistance (l : Nat) (d : Int) (e : CodeEntry) :
    (Assembly.setDistance l d e).mark? = e.mark? := by cases e <;> rfl

@[simp] theorem size_setDistance (l : Nat) (d : Int) (e : CodeEntry) :
    (Assembly.setDistance l d e).size = e.size := by
  cases e <;> simp [Assembly.setDistance, size, bytes]

end CodeEntry

namespace Assembly

@[simp] theorem sizeOf_nil : sizeOf [] = 0 := rfl

@[simp] theorem sizeOf_cons (e : CodeEntry) (es : List CodeEntry) :
    sizeOf (e :: es) = e.size + sizeOf es := by simp [sizeOf]

@[simp] theorem sizeOf_append (xs ys : List CodeEntry) :
    sizeOf (xs ++ ys) = sizeOf xs + sizeOf ys := by simp [sizeOf]

@[simp] theorem sizeOf_setDistance (l : Nat) (d : Int) (es : List CodeEntry) :
    sizeOf (es.map (setDistance l d)) = sizeOf es := by
  simp [sizeOf, Function.comp_def]

/-- Where an entry starts. -/
def startOf (es : List CodeEntry) (i : Nat) : Nat := sizeOf (es.take i)

theorem startOf_append {es : List CodeEntry} {i : Nat} (h : i ≤ es.length) (es' : List CodeEntry) :
    startOf (es ++ es') i = startOf es i := by
  simp [startOf, List.take_append_of_le_length h]

theorem startOf_setDistance (l : Nat) (d : Int) (es : List CodeEntry) (i : Nat) :
    startOf (es.map (setDistance l d)) i = startOf es i := by
  rw [startOf, startOf, ← List.map_take, sizeOf_setDistance]

theorem startOf_length (es : List CodeEntry) : startOf es es.length = sizeOf es := by
  rw [startOf, List.take_length]

theorem startOf_mono {es : List CodeEntry} {i j : Nat} (h : i ≤ j) : startOf es i ≤ startOf es j := by
  rw [startOf, startOf, ← Nat.sub_add_cancel h, Nat.add_comm, List.take_add, sizeOf_append]
  omega

/-- **Code whose labels are in order.** -/
structure Sound (a : Assembly) : Prop where
  /-- A label has been given out. -/
  jumps : ∀ e ∈ a.entries, ∀ l, e.jump? = some l → l ≤ a.labels
  marks : ∀ e ∈ a.entries, ∀ l, e.mark? = some l → l ≤ a.labels
  /-- A label has one jump. -/
  oneJump : ∀ (i j : Nat) e e' l, a.entries[i]? = some e → a.entries[j]? = some e' →
    e.jump? = some l → e'.jump? = some l → i = j
  /-- A label is bound once. -/
  oneMark : ∀ (i j : Nat) e e' l, a.entries[i]? = some e → a.entries[j]? = some e' →
    e.mark? = some l → e'.mark? = some l → i = j
  /-- A jump holds the distance to its mark. -/
  linked : ∀ (i j : Nat) form l d, a.entries[i]? = some (.jump form l d) → a.entries[j]? = some (.mark l) →
    i < j ∧ d = (startOf a.entries j : Int) - startOf a.entries (i + 1) ∧
      fitsSigned (8 * form.width) d = true

theorem sound_nil (keepListing : Bool) : Sound { keepListing := keepListing } where
  jumps := by simp
  marks := by simp
  oneJump := by simp
  oneMark := by simp
  linked := by simp

/-- **Code that continues other code.** -/
structure Leads (a a' : Assembly) : Prop where
  sound : a'.Sound
  keepListing : a'.keepListing = a.keepListing
  labels : a.labels ≤ a'.labels
  entries : ∃ es, a'.entries = a.entries ++ es ∧ ∀ e ∈ es, ∀ l,
    e.jump? = some l ∨ e.mark? = some l → a.labels < l

theorem Leads.refl {a : Assembly} (h : a.Sound) : a.Leads a :=
  ⟨h, rfl, Nat.le_refl _, [], by simp, by simp⟩

theorem Leads.trans {a b c : Assembly} (hab : a.Leads b) (hbc : b.Leads c) : a.Leads c := by
  obtain ⟨es, he, fresh⟩ := hab.entries
  obtain ⟨es', he', fresh'⟩ := hbc.entries
  refine ⟨hbc.sound, hbc.keepListing.trans hab.keepListing, Nat.le_trans hab.labels hbc.labels,
    es ++ es', by rw [he', he, List.append_assoc], fun e hmem l hl => ?_⟩
  rcases List.mem_append.1 hmem with hmem | hmem
  · exact fresh e hmem l hl
  · exact Nat.lt_of_le_of_lt hab.labels (fresh' e hmem l hl)

/-- A label whose jump has been written and that is not bound yet. -/
structure Open (a : Assembly) (form : JumpForm) (label : Nat) : Prop where
  jump : ∃ d, .jump form label d ∈ a.entries
  unbound : ∀ e ∈ a.entries, e.mark? ≠ some label

/-- A label stays open while the code is continued. -/
theorem Open.leads {a a' : Assembly} {form : JumpForm} {l : Nat} (h : a.Open form l)
    (sound : a.Sound) (leads : a.Leads a') : a'.Open form l := by
  obtain ⟨d, hd⟩ := h.jump
  obtain ⟨es, he, fresh⟩ := leads.entries
  refine ⟨⟨d, he ▸ List.mem_append_left _ hd⟩, fun e hmem hl => ?_⟩
  rcases List.mem_append.1 (he ▸ hmem) with hmem | hmem
  · exact h.unbound e hmem hl
  · exact Nat.not_lt.2 (sound.jumps _ hd l rfl) (fresh e hmem l (.inr hl))

/-! ## Writing -/

/-- The entries of code behind which one more is written. -/
theorem getElem?_concat_eq {es : List CodeEntry} {e x : CodeEntry} {i : Nat}
    (h : (es ++ [e])[i]? = some x) :
    (i < es.length ∧ es[i]? = some x) ∨ (i = es.length ∧ x = e) := by
  rcases Nat.lt_trichotomy i es.length with lt | rfl | gt
  · rw [List.getElem?_append_left lt] at h
    exact .inl ⟨lt, h⟩
  · rw [List.getElem?_concat_length] at h
    exact .inr ⟨rfl, (Option.some.inj h).symm⟩
  · rw [List.getElem?_eq_none (by simp; omega)] at h
    cases h

/-- **Writing an entry that is no mark** keeps the labels in order, if a
jump brings a new label. -/
theorem sound_concat {a : Assembly} (h : a.Sound) {e : CodeEntry} {labels : Nat}
    (grown : a.labels ≤ labels) (noMark : e.mark? = none)
    (fresh : ∀ l, e.jump? = some l → a.labels < l ∧ l ≤ labels) :
    Sound { a with entries := a.entries ++ [e], labels := labels } := by
  -- The entry is no mark, and a jump in it goes to a label that no entry before it
  -- jumps to or marks.
  have known {i : Nat} {x : CodeEntry} {l : Nat} (hi : a.entries[i]? = some x)
      (hl : x.jump? = some l) : l ≤ a.labels := h.jumps x (List.mem_of_getElem? hi) l hl
  refine
    { jumps := fun x hx l hl => ?_
      marks := fun x hx l hl => ?_
      oneJump := fun i j x y l hi hj hx hy => ?_
      oneMark := fun i j x y l hi hj hx hy => ?_
      linked := fun i j form l d hi hj => ?_ }
  · rcases List.mem_append.1 hx with hx | hx
    · exact Nat.le_trans (h.jumps x hx l hl) grown
    · rw [List.mem_singleton] at hx
      exact (fresh l (hx ▸ hl)).2
  · rcases List.mem_append.1 hx with hx | hx
    · exact Nat.le_trans (h.marks x hx l hl) grown
    · rw [List.mem_singleton] at hx
      rw [hx, noMark] at hl
      cases hl
  · rcases getElem?_concat_eq hi with ⟨-, oldI⟩ | ⟨lastI, rfl⟩ <;>
      rcases getElem?_concat_eq hj with ⟨-, oldJ⟩ | ⟨lastJ, rfl⟩
    · exact h.oneJump i j x y l oldI oldJ hx hy
    · exact absurd (known oldI hx) (Nat.not_le.2 (fresh l hy).1)
    · exact absurd (known oldJ hy) (Nat.not_le.2 (fresh l hx).1)
    · rw [lastI, lastJ]
  · rcases getElem?_concat_eq hi with ⟨-, oldI⟩ | ⟨-, rfl⟩
    · rcases getElem?_concat_eq hj with ⟨-, oldJ⟩ | ⟨-, rfl⟩
      · exact h.oneMark i j x y l oldI oldJ hx hy
      · rw [noMark] at hy
        cases hy
    · rw [noMark] at hx
      cases hx
  · rcases getElem?_concat_eq hj with ⟨ltJ, oldJ⟩ | ⟨-, rfl⟩
    · rcases getElem?_concat_eq hi with ⟨ltI, oldI⟩ | ⟨-, rfl⟩
      · rw [startOf_append (Nat.le_of_lt ltJ), startOf_append ltI]
        exact h.linked i j form l d oldI oldJ
      · have := h.marks (.mark l) (List.mem_of_getElem? oldJ) l rfl
        exact absurd this (Nat.not_le.2 (fresh l rfl).1)
    · cases noMark

/-- Writing an entry that is neither a jump nor a mark. -/
theorem leads_write {a : Assembly} (h : a.Sound) {e : CodeEntry} (plain : e.isPlain) :
    a.Leads (a.write e) where
  sound := sound_concat h (Nat.le_refl _) plain.2 fun l hl => by
    rw [plain.1] at hl
    cases hl
  keepListing := rfl
  labels := Nat.le_refl _
  entries := ⟨[e], rfl, fun x hx l hl => by
    rw [List.mem_singleton] at hx
    rw [hx, plain.1, plain.2] at hl
    rcases hl with hl | hl <;> cases hl⟩

/-- **Writing a jump** opens its label. -/
theorem leads_jump {a : Assembly} (h : a.Sound) (form : JumpForm) :
    a.Leads (a.jump form).2 ∧ (a.jump form).2.Open form (a.jump form).1 ∧
      a.labels < (a.jump form).1 := by
  refine ⟨⟨sound_concat h (Nat.le_succ _) rfl fun l hl => ?_, rfl, Nat.le_succ _,
    [.jump form (a.labels + 1) 0], rfl, fun x hx l hl => ?_⟩, ⟨⟨0, ?_⟩, fun x hx hl => ?_⟩,
    Nat.lt_succ_self _⟩
  · cases hl
    exact ⟨Nat.lt_succ_self _, Nat.le_refl _⟩
  · rw [List.mem_singleton] at hx
    subst hx
    rcases hl with hl | hl
    · cases hl
      exact Nat.lt_succ_self _
    · cases hl
  · exact List.mem_append_right _ (List.mem_singleton_self _)
  · rcases List.mem_append.1 hx with hx | hx
    · exact Nat.not_lt.2 (h.marks x hx _ hl) (Nat.lt_succ_self _)
    · rw [List.mem_singleton] at hx
      subst hx
      cases hl

/-! ## Binding -/

/-- The jump of a label is found where it stands. -/
theorem findJump?_eq {l : Nat} {form : JumpForm} {d : Int} :
    ∀ {es : List CodeEntry} {i : Nat} (start : Nat), es[i]? = some (.jump form l d) →
      (∀ (j : Nat) x, es[j]? = some x → x.jump? = some l → j = i) →
      findJump? l start es = some (form, start + startOf es (i + 1))
  | [], _, _, h, _ => by simp at h
  | e :: es, 0, start, h, _ => by
    cases h
    simp [findJump?, startOf]
  | e :: es, i + 1, start, h, only => by
    have later : findJump? l (start + e.size) es =
        some (form, start + e.size + startOf es (i + 1)) :=
      findJump?_eq (start + e.size) h fun j x hj hx => by
        have := only (j + 1) x hj hx
        omega
    have other : e.jump? ≠ some l := fun he => by
      have := only 0 e rfl he
      omega
    have total : start + e.size + startOf es (i + 1) = start + startOf (e :: es) (i + 1 + 1) := by
      simp [startOf]
      omega
    rw [← total, ← later]
    cases e with
    | jump f l' d' =>
      have : l' ≠ l := fun e => other (by rw [e]; rfl)
      simp [findJump?, this]
    | _ => rfl

/-- What binding an open label comes to: the distance from its jump to
the end of the code, if the jump can hold it. -/
theorem bind_eq {a : Assembly} (sound : a.Sound) {form : JumpForm} {l : Nat}
    (isOpen : a.Open form l) :
    ∃ (i : Nat) (d : Int), a.entries[i]? = some (.jump form l d) ∧
      a.bind l =
        (if fitsSigned (8 * form.width) ((a.size : Int) - startOf a.entries (i + 1)) then
          .ok { a with entries :=
              a.entries.map (setDistance l ((a.size : Int) - startOf a.entries (i + 1))) ++
                [.mark l] }
        else .error (.layout
          (if form.width = 1 then .shortJump ((a.size : Int) - startOf a.entries (i + 1))
           else .longJump ((a.size : Int) - startOf a.entries (i + 1))))) := by
  obtain ⟨d, mem⟩ := isOpen.jump
  obtain ⟨i, hi⟩ := List.getElem?_of_mem mem
  refine ⟨i, d, hi, ?_⟩
  have found := findJump?_eq 0 hi fun j x hj hx => sound.oneJump j i x _ l hj hi hx rfl
  rw [bind, found]
  simp only [Nat.zero_add]

theorem getElem?_setDistance {es : List CodeEntry} {l i : Nat} {d : Int} {x : CodeEntry}
    (h : (es.map (setDistance l d))[i]? = some x) :
    ∃ y, es[i]? = some y ∧ x = setDistance l d y := by
  rw [List.getElem?_map] at h
  obtain ⟨y, hy, same⟩ := Option.map_eq_some_iff.1 h
  exact ⟨y, hy, same.symm⟩

/-- **Binding keeps the labels in order.** -/
theorem sound_bind {a : Assembly} (sound : a.Sound) {form : JumpForm} {l i : Nat} {d dist : Int}
    (isOpen : a.Open form l) (hi : a.entries[i]? = some (.jump form l d))
    (distance : dist = (a.size : Int) - startOf a.entries (i + 1))
    (fits : fitsSigned (8 * form.width) dist = true) :
    Sound { a with entries := a.entries.map (setDistance l dist) ++ [.mark l] } := by
  -- An entry of the new code is an old one, with its distance set if it jumps to this
  -- label, or it is the mark at the end.
  have old {j : Nat} {x : CodeEntry}
      (h : (a.entries.map (setDistance l dist) ++ [CodeEntry.mark l])[j]? = some x) :
      (j < a.entries.length ∧ ∃ y, a.entries[j]? = some y ∧ x = setDistance l dist y) ∨
        (j = a.entries.length ∧ x = .mark l) := by
    rcases getElem?_concat_eq h with ⟨lt, h⟩ | ⟨last, e⟩
    · exact .inl ⟨by simpa using lt, getElem?_setDistance h⟩
    · exact .inr ⟨by simpa using last, e⟩
  have position {j : Nat} (h : j ≤ a.entries.length) :
      startOf (a.entries.map (setDistance l dist) ++ [CodeEntry.mark l]) j = startOf a.entries j := by
    rw [startOf_append (by simpa using h), startOf_setDistance]
  have unbound {j : Nat} {y : CodeEntry} (h : a.entries[j]? = some y) : y.mark? ≠ some l :=
    isOpen.unbound y (List.mem_of_getElem? h)
  have known := sound.jumps _ (List.mem_of_getElem? hi) l rfl
  refine
    { jumps := fun x hx l' hl => ?_
      marks := fun x hx l' hl => ?_
      oneJump := fun j k x y l' hj hk hx hy => ?_
      oneMark := fun j k x y l' hj hk hx hy => ?_
      linked := fun j k form' l' d' hj hk => ?_ }
  · obtain ⟨j, hj⟩ := List.getElem?_of_mem hx
    rcases old hj with ⟨-, y, hy, rfl⟩ | ⟨-, rfl⟩
    · exact sound.jumps y (List.mem_of_getElem? hy) l' (by simpa using hl)
    · cases hl
  · obtain ⟨j, hj⟩ := List.getElem?_of_mem hx
    rcases old hj with ⟨-, y, hy, rfl⟩ | ⟨-, rfl⟩
    · exact sound.marks y (List.mem_of_getElem? hy) l' (by simpa using hl)
    · cases hl
      exact known
  · rcases old hj with ⟨-, x', oldJ, rfl⟩ | ⟨-, rfl⟩
    · rcases old hk with ⟨-, y', oldK, rfl⟩ | ⟨-, rfl⟩
      · exact sound.oneJump j k x' y' l' oldJ oldK (by simpa using hx) (by simpa using hy)
      · cases hy
    · cases hx
  · rcases old hj with ⟨-, x', oldJ, rfl⟩ | ⟨lastJ, rfl⟩ <;>
      rcases old hk with ⟨-, y', oldK, rfl⟩ | ⟨lastK, rfl⟩
    · exact sound.oneMark j k x' y' l' oldJ oldK (by simpa using hx) (by simpa using hy)
    · cases hy
      exact absurd (by simpa using hx) (unbound oldJ)
    · cases hx
      exact absurd (by simpa using hy) (unbound oldK)
    · rw [lastJ, lastK]
  · rcases old hj with ⟨ltJ, x', oldJ, same⟩ | ⟨-, same⟩
    · obtain ⟨d₀, rfl⟩ : ∃ d₀, x' = .jump form' l' d₀ := by
        cases x' with
        | jump f m e =>
          simp only [setDistance, CodeEntry.jump.injEq] at same
          exact ⟨e, by rw [same.1, same.2.1]⟩
        | _ => cases same
      rcases old hk with ⟨ltK, y', oldK, same'⟩ | ⟨lastK, same'⟩
      · -- an older label keeps its distance
        obtain rfl : y' = .mark l' := by
          cases y' with
          | mark m =>
            simp only [setDistance, CodeEntry.mark.injEq] at same'
            rw [same']
          | _ => cases same'
        have other : l' ≠ l := fun e => unbound oldK (by rw [e]; rfl)
        simp only [setDistance, other, if_false, CodeEntry.jump.injEq] at same
        rw [position (Nat.le_of_lt ltK), position ltJ, same.2.2]
        exact sound.linked j k form' l' d₀ oldJ oldK
      · cases same'
        obtain rfl := sound.oneJump j i _ _ l oldJ hi rfl rfl
        rw [oldJ] at hi
        cases hi
        simp only [setDistance, if_true, CodeEntry.jump.injEq] at same
        rw [lastK, position (Nat.le_refl _), position ltJ, startOf_length, same.2.2]
        exact ⟨ltJ, distance, fits⟩
    · cases same

/-- Other labels stay open. -/
theorem Open.bind {a : Assembly} {form : JumpForm} {l l' : Nat} {dist : Int} (h : a.Open form l')
    (other : l' ≠ l) :
    Open { a with entries := a.entries.map (setDistance l dist) ++ [.mark l] } form l' := by
  obtain ⟨⟨d, mem⟩, unbound⟩ := h
  refine ⟨⟨d, List.mem_append_left _ (List.mem_map.2 ⟨_, mem, by simp [setDistance, other]⟩)⟩,
    fun e he hl => ?_⟩
  rcases List.mem_append.1 he with he | he
  · obtain ⟨e', he', rfl⟩ := List.mem_map.1 he
    exact unbound e' he' (by simpa using hl)
  · rw [List.mem_singleton] at he
    subst he
    cases hl
    exact other rfl

/-- **Binding a label that is younger than some code** continues that
code. -/
theorem Leads.bind {a₀ a : Assembly} (leads : a₀.Leads a) {form : JumpForm} {l i : Nat} {d dist : Int}
    (young : a₀.labels < l) (base : a₀.Sound) (isOpen : a.Open form l)
    (hi : a.entries[i]? = some (.jump form l d))
    (distance : dist = (a.size : Int) - startOf a.entries (i + 1))
    (fits : fitsSigned (8 * form.width) dist = true) :
    a₀.Leads { a with entries := a.entries.map (setDistance l dist) ++ [.mark l] } := by
  obtain ⟨es, he, fresh⟩ := leads.entries
  have untouched : a₀.entries.map (setDistance l dist) = a₀.entries := by
    refine (List.map_congr_left fun e he => ?_).trans (List.map_id _)
    cases e with
    | jump f m e =>
      have : m ≠ l := fun same => Nat.not_lt.2 (base.jumps _ he m rfl) (same ▸ young)
      simp [setDistance, this]
    | _ => rfl
  refine ⟨sound_bind leads.sound isOpen hi distance fits, leads.keepListing, leads.labels,
    es.map (setDistance l dist) ++ [.mark l], ?_, fun e hmem m hm => ?_⟩
  · simp only [he, List.map_append, untouched, List.append_assoc]
  · rcases List.mem_append.1 hmem with hmem | hmem
    · obtain ⟨e', he', rfl⟩ := List.mem_map.1 hmem
      exact fresh e' he' m (by simpa using hm)
    · rw [List.mem_singleton] at hmem
      subst hmem
      rcases hm with hm | hm <;> cases hm
      exact young

end Assembly

end Shading
