import GhRunner.Lib.Text

/-!
# Percent escapes of a few characters

A writer puts `%` and two characters in place of each character of its table; a reader puts back
those codes it knows and copies every other character.

* `Escapes` — a table that escapes `%` itself and none of the characters of its codes;
* `unescape_escape` — what a reader makes of a written text, character by character;
* `unescape_escape_eq_iff` — it is the text itself iff the reader knows every code that was used;
* `trim_escape` — white space that is escaped is not trimmed.
-/

namespace Percent

open Text

/-- The characters that are escaped, each with the two characters that stand for it after `%`. -/
structure Escapes where
  table : List (Char × (Char × Char))
  percent : '%' ∈ table.map Prod.fst
  codes : ∀ e ∈ table, ∀ d ∈ [e.2.1, e.2.2], d ∉ table.map Prod.fst ∧ isWhitespace d = false

/-- One pass from the left: a known code is put back, any other character is copied. -/
def unescape (decode : Char → Char → Option Char) : Str → Str
  | [] => []
  | '%' :: a :: b :: rest =>
    match decode a b with
    | some c => c :: unescape decode rest
    | none => '%' :: unescape decode (a :: b :: rest)
  | c :: rest => c :: unescape decode rest

variable {decode : Char → Char → Option Char}

theorem unescape_cons {c : Char} (h : c ≠ '%') (rest : Str) :
    unescape decode (c :: rest) = c :: unescape decode rest := by
  rw [unescape]
  exact fun _ _ _ hc => absurd hc h

theorem unescape_code (a b : Char) (rest : Str) :
    unescape decode ('%' :: a :: b :: rest) =
      match decode a b with
      | some c => c :: unescape decode rest
      | none => '%' :: unescape decode (a :: b :: rest) := by
  rw [unescape]

namespace Escapes

variable (E : Escapes)

def code (c : Char) : Option (Char × Char) := E.table.lookup c

/-- A character as it is written. -/
def write (c : Char) : Str :=
  match E.code c with
  | none => [c]
  | some (a, b) => ['%', a, b]

def escape (s : Str) : Str := s.flatMap E.write

/-- What a reader makes of a written character. -/
def readBack (decode : Char → Char → Option Char) (c : Char) : Str :=
  match E.code c with
  | none => [c]
  | some (a, b) =>
    match decode a b with
    | some d => [d]
    | none => ['%', a, b]

/-- White space at an end of a text that is written as it is. -/
def bare (c : Char) : Bool := isWhitespace c && (E.code c).isNone

/-- Without the bare white space at both ends. -/
def strip (s : Str) : Str := (s.dropWhile E.bare).rdropWhile E.bare

variable {E} {c d a b : Char} {s : Str}

/-! ### The table -/

theorem code_eq_none_iff : E.code c = none ↔ c ∉ E.table.map Prod.fst := by
  rw [code, List.lookup_eq_none_iff, List.mem_map]
  constructor
  · rintro h ⟨e, he, rfl⟩
    simpa using h e he
  · intro h e he
    rw [bne_iff_ne]
    rintro rfl
    exact h ⟨e, he, rfl⟩

theorem mem_table (h : E.code c = some (a, b)) : (c, (a, b)) ∈ E.table := by
  obtain ⟨before, after, hsplit, -⟩ := List.lookup_eq_some_iff.mp h
  rw [hsplit]
  simp

theorem code_notMem (h : E.code c = some (a, b)) (hd : d ∈ [a, b]) :
    E.code d = none ∧ isWhitespace d = false := by
  obtain ⟨hnone, hblank⟩ := E.codes _ (mem_table h) d hd
  exact ⟨code_eq_none_iff.mpr hnone, hblank⟩

theorem code_percent : E.code '%' ≠ none := fun h => code_eq_none_iff.mp h E.percent

theorem write_of_none (h : E.code c = none) : E.write c = [c] := by rw [write, h]

theorem write_of_some (h : E.code c = some (a, b)) : E.write c = ['%', a, b] := by rw [write, h]

theorem ne_percent (h : E.code c = none) : c ≠ '%' := by
  rintro rfl
  exact code_percent h

/-! ### Reading back -/

theorem readBack_of_none (h : E.code c = none) : E.readBack decode c = [c] := by rw [readBack, h]

theorem readBack_of_some (h : E.code c = some (a, b)) (hd : decode a b = some d) :
    E.readBack decode c = [d] := by
  rw [readBack, h]
  simp [hd]

theorem unescape_escape (decode : Char → Char → Option Char) (s : Str) :
    unescape decode (E.escape s) = s.flatMap (E.readBack decode) := by
  induction s with
  | nil => rfl
  | cons c s ih =>
    have hcons : E.escape (c :: s) = E.write c ++ E.escape s := rfl
    rw [hcons, List.flatMap_cons, ← ih]
    cases hc : E.code c with
    | none =>
      rw [write_of_none hc, readBack_of_none hc]
      exact unescape_cons (ne_percent hc) _
    | some ab =>
      obtain ⟨a, b⟩ := ab
      have ha : a ≠ '%' := ne_percent (code_notMem hc (by simp)).1
      have hb : b ≠ '%' := ne_percent (code_notMem hc (by simp)).1
      rw [write_of_some hc]
      show unescape decode ('%' :: a :: b :: E.escape s) = _
      rw [unescape_code]
      -- a code the reader does not know is copied, and neither of its characters starts another
      cases hd : decode a b with
      | some d =>
        rw [readBack_of_some hc hd]
        rfl
      | none =>
        show '%' :: unescape decode (a :: b :: E.escape s) = _
        rw [unescape_cons ha, unescape_cons hb, readBack, hc]
        simp [hd]

/-- A text is read back as it was iff the reader knows the codes it was written with; a code it does
    not know makes the text longer. -/
theorem unescape_escape_eq_iff
    (hdecode : ∀ c a b, E.code c = some (a, b) → ∀ d, decode a b = some d → d = c) :
    unescape decode (E.escape s) = s ↔
      ∀ c ∈ s, ∀ a b, E.code c = some (a, b) → decode a b = some c := by
  have hlen : ∀ c, 1 ≤ (E.readBack decode c).length := fun c => by
    unfold readBack
    split
    · simp
    · split <;> simp
  have hle : ∀ s : Str, s.length ≤ (s.flatMap (E.readBack decode)).length := by
    intro s
    induction s with
    | nil => simp
    | cons c s ih =>
      have := hlen c
      rw [List.flatMap_cons, List.length_append, List.length_cons]
      omega
  rw [unescape_escape]
  induction s with
  | nil => simp
  | cons c s ih =>
    rw [List.flatMap_cons, List.forall_mem_cons]
    constructor
    · intro h
      have hsum : (E.readBack decode c).length + (s.flatMap (E.readBack decode)).length =
          s.length + 1 := by
        rw [← List.length_append, h, List.length_cons]
      have hone : (E.readBack decode c).length = 1 := by
        have := hlen c
        have := hle s
        omega
      refine ⟨fun a b hc => ?_, ih.mp ?_⟩
      · unfold readBack at hone
        rw [hc] at hone
        dsimp only at hone
        split at hone
        case h_1 d hd => rw [hd, hdecode c a b hc d hd]
        case h_2 => simp at hone
      · obtain ⟨d, hd⟩ := List.length_eq_one_iff.mp hone
        rw [hd] at h
        exact (List.cons.inj h).2
    · rintro ⟨hc, hs⟩
      have hback : E.readBack decode c = [c] := by
        unfold readBack
        split
        case h_1 => rfl
        case h_2 a b hab => rw [hc a b hab]
      rw [hback, ih.mpr hs, List.singleton_append]

/-- Nothing is written otherwise than it is iff no character of the text is escaped. -/
theorem escape_eq_self_iff : E.escape s = s ↔ ∀ c ∈ s, E.code c = none := by
  have hread : E.escape s = s.flatMap (E.readBack fun _ _ => none) := rfl
  rw [hread, ← unescape_escape, unescape_escape_eq_iff (by simp)]
  refine forall₂_congr fun c _ => ?_
  cases E.code c with
  | none => simp
  | some ab => exact iff_of_false (fun h => by simpa using h ab.1 ab.2 rfl) (by simp)

/-- An escaped character does not stand in a written text, `%` apart. -/
theorem notMem_escape (hc : E.code c ≠ none) (hpercent : c ≠ '%') : c ∉ E.escape s := by
  rw [escape, List.mem_flatMap]
  rintro ⟨d, -, hd⟩
  unfold write at hd
  split at hd
  case h_1 hnone => exact hc (List.mem_singleton.mp hd ▸ hnone)
  case h_2 a b hcode =>
    rcases List.mem_cons.mp hd with rfl | hd
    · exact hpercent rfl
    · exact hc (code_notMem hcode hd).1

theorem percent_mem_escape (hd : d ∈ s) (hcode : E.code d ≠ none) : '%' ∈ E.escape s := by
  obtain ⟨⟨a, b⟩, hab⟩ := Option.ne_none_iff_exists'.mp hcode
  exact List.mem_flatMap.mpr ⟨d, hd, by simp [write, hab]⟩

/-! ### White space at the ends -/

/-- Dropping from the front goes through writing when what is dropped is written as it is, and what
    is not is written with a first character that stays. -/
theorem dropWhile_flatMap {f : Char → Str} {p q : Char → Bool}
    (hdrop : ∀ c, q c = true → f c = [c] ∧ p c = true)
    (hkeep : ∀ c, q c = false → ∃ d rest, f c = d :: rest ∧ p d = false) (s : Str) :
    (s.flatMap f).dropWhile p = (s.dropWhile q).flatMap f := by
  induction s with
  | nil => rfl
  | cons c s ih =>
    cases hq : q c with
    | true =>
      obtain ⟨hf, hp⟩ := hdrop c hq
      rw [List.flatMap_cons, hf, List.singleton_append, List.dropWhile_cons_of_pos hp, ih,
        List.dropWhile_cons_of_pos hq]
    | false =>
      obtain ⟨d, rest, hf, hp⟩ := hkeep c hq
      rw [List.dropWhile_cons_of_neg (by simp [hq]), List.flatMap_cons, hf, List.cons_append,
        List.dropWhile_cons_of_neg (by simp [hp])]

/-- So does dropping from both ends. -/
theorem dropBoth_flatMap {f : Char → Str} {p q : Char → Bool}
    (hdrop : ∀ c, q c = true → f c = [c] ∧ p c = true)
    (hfront : ∀ c, q c = false → ∃ d rest, f c = d :: rest ∧ p d = false)
    (hback : ∀ c, q c = false → ∃ d rest, (f c).reverse = d :: rest ∧ p d = false) (s : Str) :
    ((s.flatMap f).dropWhile p).rdropWhile p = ((s.dropWhile q).rdropWhile q).flatMap f := by
  have hreverse : List.reverse ∘ (List.reverse ∘ f) = f := by
    funext c
    exact List.reverse_reverse _
  have hends := dropWhile_flatMap (f := List.reverse ∘ f)
    (fun c hc => ⟨by simp [(hdrop c hc).1], (hdrop c hc).2⟩) hback (s.dropWhile q).reverse
  rw [dropWhile_flatMap hdrop hfront, List.rdropWhile, List.rdropWhile, List.reverse_flatMap, hends,
    List.reverse_flatMap, hreverse]

theorem bare_iff : E.bare c = true ↔ isWhitespace c = true ∧ E.code c = none := by
  rw [bare, Bool.and_eq_true, Option.isNone_iff_eq_none]

theorem bare_of_code_ne_none (h : E.code c ≠ none) : E.bare c = false := by
  rw [← Bool.not_eq_true, bare_iff]
  exact fun hbare => h hbare.2

theorem bare_percent : E.bare '%' = false := bare_of_code_ne_none code_percent

/-- Both ends of a written character that is not bare stay. -/
theorem write_of_not_bare (h : E.bare c = false) :
    (∃ d rest, E.write c = d :: rest ∧ isWhitespace d = false) ∧
      ∃ d rest, (E.write c).reverse = d :: rest ∧ isWhitespace d = false := by
  cases hc : E.code c with
  | none =>
    have hblank : isWhitespace c = false := by simpa [bare, hc] using h
    rw [write_of_none hc]
    exact ⟨⟨c, [], rfl, hblank⟩, c, [], rfl, hblank⟩
  | some ab =>
    rw [write_of_some hc]
    exact ⟨⟨'%', _, rfl, by decide⟩, ab.2, [ab.1, '%'], rfl, (code_notMem hc (by simp)).2⟩

theorem trim_escape (s : Str) : trim (E.escape s) = E.escape (E.strip s) :=
  dropBoth_flatMap (fun _ hc => ⟨write_of_none (bare_iff.mp hc).2, (bare_iff.mp hc).1⟩)
    (fun _ hc => (write_of_not_bare hc).1) (fun _ hc => (write_of_not_bare hc).2) s

/-- What is read back has the bare white space of what was written. -/
theorem strip_unescape_escape
    (hdecode : ∀ c a b, E.code c = some (a, b) → ∀ d, decode a b = some d → d = c) (s : Str) :
    E.strip (unescape decode (E.escape s)) = unescape decode (E.escape (E.strip s)) := by
  have hends : ∀ c, E.bare c = false →
      (∃ d rest, E.readBack decode c = d :: rest ∧ E.bare d = false) ∧
        ∃ d rest, (E.readBack decode c).reverse = d :: rest ∧ E.bare d = false := by
    intro c hc
    cases hcode : E.code c with
    | none =>
      rw [readBack_of_none hcode]
      exact ⟨⟨c, [], rfl, hc⟩, c, [], rfl, hc⟩
    | some ab =>
      obtain ⟨a, b⟩ := ab
      have hb : E.bare b = false := by
        rw [bare, (code_notMem hcode (by simp)).2, Bool.false_and]
      cases hd : decode a b with
      | some d =>
        obtain rfl := hdecode c a b hcode d hd
        rw [readBack_of_some hcode hd]
        exact ⟨⟨d, [], rfl, hc⟩, d, [], rfl, hc⟩
      | none =>
        have hback : E.readBack decode c = ['%', a, b] := by
          rw [readBack, hcode]
          simp [hd]
        rw [hback]
        exact ⟨⟨'%', _, rfl, bare_percent⟩, b, [a, '%'], rfl, hb⟩
  rw [unescape_escape, unescape_escape]
  exact dropBoth_flatMap (fun _ hc => ⟨readBack_of_none (bare_iff.mp hc).2, hc⟩)
    (fun c hc => (hends c hc).1) (fun c hc => (hends c hc).2) s

/-- A text without bare white space has none at its ends. -/
theorem strip_of_forall_not_bare (h : ∀ c ∈ s, E.bare c = false) : E.strip s = s := by
  have hfront : s.dropWhile E.bare = s := by
    cases s with
    | nil => rfl
    | cons c s => exact List.dropWhile_cons_of_neg (by simp [h c])
  rw [strip, hfront, List.rdropWhile_eq_self_iff]
  intro hne hlast
  rw [h _ (List.getLast_mem hne)] at hlast
  cases hlast

theorem strip_strip (s : Str) : E.strip (E.strip s) = E.strip s := by
  have hfront : (E.strip s).dropWhile E.bare = E.strip s := by
    rw [List.dropWhile_eq_self_iff]
    intro hpos
    have hstarts : E.strip s <+: s.dropWhile E.bare := List.rdropWhile_prefix _ _
    obtain ⟨more, hmore⟩ := hstarts
    have hlen : 0 < (s.dropWhile E.bare).length := by
      rw [← hmore, List.length_append]
      omega
    have hfirst : (E.strip s)[0] = (s.dropWhile E.bare).get ⟨0, hlen⟩ := by
      simp [← hmore, List.getElem_append_left hpos]
    rw [hfirst]
    exact List.dropWhile_get_zero_not _ _ hlen
  rw [strip, hfront, strip, List.rdropWhile_idempotent]

end Escapes

end Percent
