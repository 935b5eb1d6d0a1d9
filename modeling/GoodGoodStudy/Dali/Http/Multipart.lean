/-
`parse_form` on what a `multipart/form-data` encoder writes, and the exact forms that it decodes.

A part is written as a head of lines, an empty line and the content. `parse_form` splits the body at
the delimiter, finds the end of the head as the first empty line, and searches the head for the
name, the file name and the content type. The content type it finds replaces the content of a file.
-/
import GoodGoodStudy.Dali.Http.Form

namespace GoodGoodStudy.Dali

open GoodGoodStudy.Lib

/-! ## The encoder -/

/-- A boundary: text without line ends and quotes. -/
structure Boundary where
  text : Bytes
  cr_not_mem : cr ∉ text
  lf_not_mem : lf ∉ text
  quote_not_mem : quote ∉ text

/-- The line that opens a part. -/
def Boundary.dashes (B : Boundary) : Bytes := ascii "--" ++ B.text

/-- What separates the parts. -/
def Boundary.delimiter (B : Boundary) : Bytes := crlf ++ B.dashes

inductive Part where
  | text (name content : Bytes)
  | file (name filename : Bytes) (type : Option Bytes) (content : Bytes)

/-- Text without quotes and line ends. -/
structure Bare (b : Bytes) : Prop where
  quote : quote ∉ b
  cr : cr ∉ b
  lf : lf ∉ b

namespace Part

def name : Part → Bytes
  | text name _ => name
  | file name _ _ _ => name

def content : Part → Bytes
  | text _ content => content
  | file _ _ _ content => content

/-- The value that a part stands for. -/
def value : Part → FormValue
  | text _ content => .text content
  | file name filename _ content => .file filename content name

def disposition (name : Bytes) : Bytes := ascii "Content-Disposition: form-data; name=\"" ++ name ++ [quote]

/-- The lines of the head. -/
def lines : Part → List Bytes
  | text name _ => [disposition name]
  | file name filename none _ => [disposition name ++ ascii "; filename=\"" ++ filename ++ [quote]]
  | file name filename (some type) _ =>
    [disposition name ++ ascii "; filename=\"" ++ filename ++ [quote], ascii "Content-Type: " ++ type]

/-- The parts that an encoder may be given. -/
structure WellFormed (B : Boundary) (p : Part) : Prop where
  name : Bare p.name
  filename : ∀ name filename type content, p = file name filename type content → filename ≠ [] ∧ Bare filename
  type : ∀ name filename type content, p = file name filename (some type) content → Bare type
  content : ¬ B.delimiter <:+: p.content

end Part

/-- The body an encoder writes: each part opened by the boundary, and the closing line. -/
def encodeForm (B : Boundary) (parts : List Part) : Bytes :=
  (parts.flatMap fun p => B.dashes ++ crlf ++ p.lines.flatMap (· ++ crlf) ++ crlf ++ p.content ++ crlf) ++
    B.dashes ++ ascii "--" ++ crlf

/-- The body without the first `dashes`: a part begins with a line end, and ends in the delimiter. -/
def restOfForm (B : Boundary) : List Part → Bytes
  | [] => ascii "--" ++ crlf
  | p :: ps => p.lines.flatMap (crlf ++ ·) ++ (crlf ++ (crlf ++ (p.content ++ (B.delimiter ++ restOfForm B ps))))

theorem flatMap_crlf (ls : List Bytes) : crlf ++ ls.flatMap (· ++ crlf) = ls.flatMap (crlf ++ ·) ++ crlf := by
  induction ls with
  | nil => rfl
  | cons l ls ih =>
    rw [List.flatMap_cons, List.flatMap_cons, List.append_assoc l, ih]
    simp only [List.append_assoc]

theorem encodeForm_eq (B : Boundary) (parts : List Part) : encodeForm B parts = B.dashes ++ restOfForm B parts := by
  induction parts with
  | nil => simp [encodeForm, restOfForm]
  | cons p ps ih =>
    have hcons : encodeForm B (p :: ps) =
        B.dashes ++ (crlf ++ p.lines.flatMap (· ++ crlf)) ++ crlf ++ p.content ++ crlf ++ encodeForm B ps := by
      simp [encodeForm]
    rw [hcons, ih, flatMap_crlf, restOfForm, Boundary.delimiter]
    simp only [List.append_assoc]

/-! ## Lines -/

/-- A line of a head: no line end in it, and it does not begin with a dash. -/
structure HeadLine (l : Bytes) : Prop where
  cr : cr ∉ l
  head : ∃ a t, l = a :: t ∧ a ≠ 45

theorem delimiter_eq (B : Boundary) : B.delimiter = cr :: ([lf, 45, 45] ++ B.text) := rfl

theorem cr_not_mem_delimiter (B : Boundary) : cr ∉ [lf, 45, 45] ++ B.text := by
  rw [List.mem_append, not_or]
  exact ⟨by decide, B.cr_not_mem⟩

/-- A line end in front of such a line begins neither a delimiter nor an empty line. -/
theorem headLine_not_start {l : Bytes} (h : HeadLine l) (X t : Bytes) (b : UInt8) (hb : b = 45 ∨ b = cr) :
    ¬ cr :: lf :: b :: t <+: cr :: (lf :: l ++ X) := by
  obtain ⟨a, t, rfl, ha⟩ := h.head
  intro hp
  simp only [List.cons_append, List.cons_prefix_cons, true_and] at hp
  rcases hb with rfl | rfl
  · exact ha hp.1.symm
  · exact h.cr (by simp [hp.1])

theorem cr_not_mem_lf_line {l : Bytes} (h : HeadLine l) : cr ∉ lf :: l := by
  rw [List.mem_cons, not_or]
  exact ⟨by decide, h.cr⟩

theorem infix_lines {B : Boundary} {ls : List Bytes} (h : ∀ l ∈ ls, HeadLine l) (X : Bytes) :
    B.delimiter <:+: ls.flatMap (crlf ++ ·) ++ X ↔ B.delimiter <:+: X := by
  induction ls with
  | nil => rfl
  | cons l ls ih =>
    have hl := h l List.mem_cons_self
    have htext : (l :: ls).flatMap (crlf ++ ·) ++ X = cr :: (lf :: l ++ (ls.flatMap (crlf ++ ·) ++ X)) := by
      simp [crlf]
    rw [htext, List.infix_cons_iff, delimiter_eq, infix_skip (cr_not_mem_lf_line hl), ← delimiter_eq,
      ih fun l hl => h l (List.mem_cons_of_mem _ hl)]
    exact or_iff_right (headLine_not_start hl _ _ 45 (.inl rfl))

theorem findSub_lines {ls : List Bytes} (h : ∀ l ∈ ls, HeadLine l) (X : Bytes) :
    findSub (crlf ++ crlf) (ls.flatMap (crlf ++ ·) ++ X) =
      (findSub (crlf ++ crlf) X).map (· + (ls.flatMap (crlf ++ ·)).length) := by
  induction ls with
  | nil => simp
  | cons l ls ih =>
    have hl := h l List.mem_cons_self
    have htext : (l :: ls).flatMap (crlf ++ ·) ++ X = cr :: (lf :: l ++ (ls.flatMap (crlf ++ ·) ++ X)) := by
      simp [crlf]
    have hempty : crlf ++ crlf = cr :: [lf, cr, lf] := rfl
    rw [htext, hempty, findSub_cons (headLine_not_start hl _ [lf] cr (.inr rfl)), findSub_skip (cr_not_mem_lf_line hl),
      ← hempty, ih fun l hl => h l (List.mem_cons_of_mem _ hl), Option.map_map, Option.map_map]
    congr 1
    funext n
    simp [crlf]
    omega

theorem headLine_disposition (name rest : Bytes) (hname : cr ∉ name) (hrest : cr ∉ rest) :
    HeadLine (Part.disposition name ++ rest) := by
  have hhead : ascii "Content-Disposition: form-data; name=\"" =
      67 :: ascii "ontent-Disposition: form-data; name=\"" := by decide
  constructor
  · simp only [Part.disposition, List.mem_append, not_or]
    exact ⟨⟨⟨by decide, hname⟩, by decide⟩, hrest⟩
  · rw [Part.disposition, hhead]
    exact ⟨67, _, rfl, by decide⟩

/-- The lines of a part's head are such lines. -/
theorem headLine_of_mem {B : Boundary} {p : Part} (h : p.WellFormed B) : ∀ l ∈ p.lines, HeadLine l := by
  have hname := h.name.cr
  intro l hl
  match p with
  | .text name content =>
    obtain rfl := List.mem_singleton.1 hl
    simpa using headLine_disposition name [] hname (by simp)
  | .file name filename none content =>
    obtain rfl := List.mem_singleton.1 hl
    have hf := (h.filename name filename none content rfl).2.cr
    rw [List.append_assoc, List.append_assoc]
    exact headLine_disposition name _ hname (by
      simp only [List.mem_append, not_or]; exact ⟨by decide, hf, by decide⟩)
  | .file name filename (some type) content =>
    have hf := (h.filename name filename (some type) content rfl).2.cr
    have ht := (h.type name filename type content rfl).cr
    rcases List.mem_pair.1 hl with rfl | rfl
    · rw [List.append_assoc, List.append_assoc]
      exact headLine_disposition name _ hname (by
        simp only [List.mem_append, not_or]; exact ⟨by decide, hf, by decide⟩)
    · have hhead : ascii "Content-Type: " = 67 :: ascii "ontent-Type: " := by decide
      constructor
      · rw [List.mem_append, not_or]
        exact ⟨by decide, ht⟩
      · rw [hhead]
        exact ⟨67, _, rfl, by decide⟩

/-! ## One piece -/

/-- The head that `parse_form` sees: what is in front of the first line end, and the lines. -/
def Part.head (pre : Bytes) (p : Part) : Bytes := pre ++ p.lines.flatMap (crlf ++ ·)

variable {B : Boundary} {pre : Bytes} {p : Part}

/-- In what follows the lines, the delimiter is met at the end of the empty line, or in the content. -/
theorem infix_empty_line (B : Boundary) (c : Bytes) :
    B.delimiter <:+: crlf ++ (crlf ++ c) ↔ B.dashes <+: c ∨ B.delimiter <:+: c := by
  have h₁ : (45 : UInt8) ≠ cr := by decide
  have h₂ : cr ≠ lf := by decide
  have hd : B.dashes = 45 :: 45 :: B.text := rfl
  rw [hd, delimiter_eq]
  simp only [crlf, List.cons_append, List.nil_append, List.infix_cons_iff, List.cons_prefix_cons, h₁, h₂,
    true_and, false_and, and_false, false_or]

theorem infix_head (hpre : cr ∉ pre) (h : p.WellFormed B) (X : Bytes) :
    B.delimiter <:+: p.head pre ++ X ↔ B.delimiter <:+: X := by
  rw [Part.head, List.append_assoc, delimiter_eq, infix_skip hpre, ← delimiter_eq, infix_lines (headLine_of_mem h)]

theorem findSub_head (hpre : cr ∉ pre) (h : p.WellFormed B) (X : Bytes) :
    findSub (crlf ++ crlf) (p.head pre ++ X) = (findSub (crlf ++ crlf) X).map (· + (p.head pre).length) := by
  have hempty : crlf ++ crlf = cr :: [lf, cr, lf] := rfl
  rw [Part.head, List.append_assoc, hempty, findSub_skip hpre, ← hempty, findSub_lines (headLine_of_mem h),
    Option.map_map]
  congr 1
  funext n
  simp only [Function.comp_apply, List.length_append]
  omega

/-- A piece is cut off whole if its content does not begin with the dashes. -/
theorem splitOnSub_form (hpre : cr ∉ pre) (h : p.WellFormed B) (hstart : ¬ B.dashes <+: p.content) (ps : List Part) :
    splitOnSub B.delimiter (pre ++ restOfForm B (p :: ps)) =
      (p.head pre ++ (crlf ++ (crlf ++ p.content))) :: splitOnSub B.delimiter (restOfForm B ps) := by
  have htext : pre ++ restOfForm B (p :: ps) =
      p.head pre ++ (crlf ++ (crlf ++ p.content)) ++ (B.delimiter ++ restOfForm B ps) := by
    simp only [restOfForm, Part.head, List.append_assoc]
  have hnot : ¬ B.delimiter <:+: p.head pre ++ (crlf ++ (crlf ++ p.content)) := by
    rw [infix_head hpre h, infix_empty_line, not_or]
    exact ⟨hstart, h.content⟩
  rw [htext]
  exact splitOnSub_piece (cr_not_mem_delimiter B) hnot _

/-- Else the piece ends in the line end of the last line of the head. -/
theorem splitOnSub_form_cut (hpre : cr ∉ pre) (h : p.WellFormed B) (hstart : B.dashes <+: p.content) (ps : List Part) :
    ∃ pieces, splitOnSub B.delimiter (pre ++ restOfForm B (p :: ps)) = (p.head pre ++ crlf) :: pieces := by
  obtain ⟨c, hc⟩ := hstart
  have htext : pre ++ restOfForm B (p :: ps) =
      p.head pre ++ crlf ++ (B.delimiter ++ (c ++ (B.delimiter ++ restOfForm B ps))) := by
    simp only [restOfForm, Part.head, ← hc, Boundary.delimiter, List.append_assoc]
  have hnot : ¬ B.delimiter <:+: p.head pre ++ crlf := by
    rw [infix_head hpre h]
    -- a delimiter is longer than a line end
    intro hi
    have hl := hi.length_le
    simp [delimiter_eq, crlf] at hl
  rw [htext]
  exact ⟨_, splitOnSub_piece (cr_not_mem_delimiter B) hnot _⟩

theorem splitOnSub_form_end (hpre : cr ∉ pre) : splitOnSub B.delimiter (pre ++ restOfForm B []) = [pre ++ restOfForm B []] := by
  refine splitOnSub_of_not_infix ?_
  rw [delimiter_eq, infix_skip hpre]
  intro hi
  have hl := (infix_skip (p := ascii "--") (by decide) crlf).1 hi |>.length_le
  simp [crlf] at hl

/-! ## What is read from a piece -/

/-- The head from the quote on that ends the name. -/
def Part.behindName : Part → Bytes
  | text _ _ => []
  | file _ filename none _ => ascii "; filename=" ++ quote :: (filename ++ [quote])
  | file _ filename (some type) _ =>
    ascii "; filename=" ++ quote :: (filename ++ quote :: (crlf ++ ascii "Content-Type: " ++ type))

def nameMark : Bytes := ascii "Content-Disposition: form-data; name="

theorem nameMark_quote : ascii "Content-Disposition: form-data; name=\"" = nameMark ++ [quote] := by decide

theorem filename_quote : ascii "filename=\"" = ascii "filename=" ++ [quote] := by decide

theorem fileMark_quote : ascii "; filename=\"" = ascii "; filename=" ++ [quote] := by decide

theorem head_eq (pre : Bytes) (p : Part) :
    p.head pre = (pre ++ crlf ++ nameMark) ++ quote :: (p.name ++ quote :: p.behindName) := by
  match p with
  | .text name content => simp [Part.head, Part.lines, Part.disposition, Part.name, Part.behindName, nameMark_quote]
  | .file name filename none content =>
    simp [Part.head, Part.lines, Part.disposition, Part.name, Part.behindName, nameMark_quote,
      fileMark_quote]
  | .file name filename (some type) content =>
    simp [Part.head, Part.lines, Part.disposition, Part.name, Part.behindName, nameMark_quote,
      fileMark_quote]

theorem quote_not_mem_nameMark (hq : quote ∉ pre) : quote ∉ pre ++ crlf ++ nameMark := by
  simp only [List.mem_append, not_or]
  exact ⟨⟨hq, by decide⟩, by decide⟩

theorem search_name (hq : quote ∉ pre) (h : p.WellFormed B) :
    search (ascii "Content-Disposition: form-data; name=\"") (lazyUntil quote lf) (p.head pre) = some p.name := by
  rw [nameMark_quote, head_eq, search_mark (by decide) (quote_not_mem_nameMark hq), if_pos (List.suffix_append _ _),
    lazyUntil_eq h.name.quote h.name.lf, Option.some_or]

/-- The first quote of a head does not end `filename="`. -/
theorem search_filename (hq : quote ∉ pre) (h : p.WellFormed B) :
    search (ascii "filename=\"") (greedyUntil quote lf) (p.head pre) =
      if ascii "filename=" <:+ p.name then
        (greedyUntil quote lf p.behindName).or (search (ascii "filename=\"") (greedyUntil quote lf) p.behindName)
      else search (ascii "filename=\"") (greedyUntil quote lf) p.behindName := by
  have hnot : ¬ ascii "filename=" <:+ pre ++ crlf ++ nameMark := fun hs =>
    absurd (List.suffix_of_suffix_length_le hs (List.suffix_append (pre ++ crlf) nameMark) (by decide)) (by decide)
  rw [filename_quote, head_eq, search_mark (by decide) (quote_not_mem_nameMark hq), if_neg hnot,
    search_mark (by decide) h.name.quote]

/-- The file name that is found. -/
def seenFilename (name filename : Bytes) : Bytes :=
  if ascii "filename=" <:+ name then ascii "; filename=\"" ++ filename else filename

/-- The content type that is found in a head, if any. -/
def seenType (pre : Bytes) (p : Part) : Option Bytes := search (ascii "Content-Type: ") (restOfLine lf) (p.head pre)

/-- The value that is read from a part. -/
def Part.seen (pre : Bytes) : Part → FormValue
  | text _ content => .text content
  | file name filename type content =>
    .file (seenFilename name filename) ((seenType pre (.file name filename type content)).getD content) name

theorem search_filename_text (hq : quote ∉ pre) {name content : Bytes} (h : (Part.text name content).WellFormed B) :
    search (ascii "filename=\"") (greedyUntil quote lf) ((Part.text name content).head pre) = none := by
  rw [search_filename hq h]
  split <;> rfl

theorem search_filename_file (hq : quote ∉ pre) {name filename content : Bytes} {type : Option Bytes}
    (h : (Part.file name filename type content).WellFormed B) :
    search (ascii "filename=\"") (greedyUntil quote lf) ((Part.file name filename type content).head pre) =
      some (seenFilename name filename) := by
  obtain ⟨-, hf⟩ := h.filename name filename type content rfl
  obtain ⟨rest, hbehind, hrest⟩ : ∃ rest, (Part.file name filename type content).behindName =
      ascii "; filename=" ++ quote :: (filename ++ quote :: rest) ∧ quote ∉ rest := by
    cases type with
    | none => exact ⟨[], rfl, List.not_mem_nil⟩
    | some type =>
      refine ⟨_, rfl, ?_⟩
      simp only [List.mem_append, not_or]
      exact ⟨⟨by decide, by decide⟩, (h.type name filename type content rfl).quote⟩
  have hsearch : search (ascii "filename=\"") (greedyUntil quote lf) (Part.file name filename type content).behindName =
      some filename := by
    rw [hbehind, filename_quote, search_mark (by decide) (by decide), if_pos (by decide), greedyUntil_eq hf.lf hrest,
      Option.some_or]
  rw [search_filename hq h, hsearch, Part.name, seenFilename]
  split
  · -- the quote behind the name already ends the literal, and the capture reaches to the last quote
    have hgreedy : greedyUntil quote lf (Part.file name filename type content).behindName =
        some (ascii "; filename=\"" ++ filename) := by
      have htext : (Part.file name filename type content).behindName =
          (ascii "; filename=\"" ++ filename) ++ quote :: rest := by
        rw [hbehind, fileMark_quote]; simp
      rw [htext, greedyUntil_eq _ hrest]
      simp only [List.mem_append, not_or]
      exact ⟨by decide, hf.lf⟩
    rw [hgreedy, Option.some_or]
  · rfl

theorem partValue_head (hq : quote ∉ pre) (h : p.WellFormed B) :
    Request.partValue (p.head pre) p.content p.name = p.seen pre := by
  match p with
  | .text name content => rw [Request.partValue, search_filename_text hq h]; rfl
  | .file name filename type content =>
    obtain ⟨hne, -⟩ := h.filename name filename type content rfl
    have hseen : seenFilename name filename ≠ [] := by
      unfold seenFilename
      split
      · exact List.cons_ne_nil _ _
      · exact hne
    rw [Request.partValue, search_filename_file hq h, Part.seen, seenType]
    obtain ⟨b, l, hbl⟩ := List.exists_cons_of_ne_nil hseen
    rw [hbl]
    cases search (ascii "Content-Type: ") (restOfLine lf) ((Part.file name filename type content).head pre) <;> rfl

theorem addPart_piece (hpre : cr ∉ pre) (hq : quote ∉ pre) (h : p.WellFormed B)
    (bodyVars : Dict Bytes (List FormValue)) :
    Request.addPart bodyVars (p.head pre ++ (crlf ++ (crlf ++ p.content))) =
      some (bodyVars.push p.name (p.seen pre)) := by
  have hfind : findSub (crlf ++ crlf) (p.head pre ++ (crlf ++ (crlf ++ p.content))) = some (p.head pre).length := by
    have hempty : findSub (crlf ++ crlf) (crlf ++ (crlf ++ p.content)) = some 0 := findSub_prefix cr [lf, cr, lf] p.content
    rw [findSub_head hpre h, hempty]
    simp
  have hdrop : (p.head pre ++ (crlf ++ (crlf ++ p.content))).drop ((p.head pre).length + 4) = p.content := by
    rw [List.drop_length_add_append]; rfl
  simp only [Request.addPart, hfind, Option.map_some, List.take_left', hdrop, search_name hq h, partValue_head hq h]

/-! ## The whole form -/

/-- The pairs that are read: up to the first content that begins with the dashes. -/
def seenPairs (B : Boundary) : Bytes → List Part → List (Bytes × FormValue)
  | _, [] => []
  | pre, p :: ps => if B.dashes <+: p.content then [] else (p.name, p.seen pre) :: seenPairs B [] ps

theorem addParts_form {parts : List Part} (hwf : ∀ p ∈ parts, p.WellFormed B) (hpre : cr ∉ pre) (hq : quote ∉ pre)
    (bodyVars : Dict Bytes (List FormValue)) :
    Request.addParts bodyVars (splitOnSub B.delimiter (pre ++ restOfForm B parts)) =
      bodyVars.pushAll (seenPairs B pre parts) := by
  induction parts generalizing pre bodyVars with
  | nil =>
    have hnone : findSub (crlf ++ crlf) (pre ++ restOfForm B []) = none := by
      rw [show crlf ++ crlf = cr :: [lf, cr, lf] from rfl, findSub_skip hpre]; rfl
    simp [splitOnSub_form_end hpre, Request.addParts, Request.addPart, hnone, seenPairs, Dict.pushAll]
  | cons p ps ih =>
    have hp := hwf p List.mem_cons_self
    -- a piece without an empty line ends the loop, and with it all later parts are lost
    by_cases hstart : B.dashes <+: p.content
    · obtain ⟨pieces, hpieces⟩ := splitOnSub_form_cut hpre hp hstart ps
      have hnone : findSub (crlf ++ crlf) (p.head pre ++ crlf) = none := by rw [findSub_head hpre hp]; rfl
      simp [hpieces, Request.addParts, Request.addPart, hnone, seenPairs, hstart, Dict.pushAll]
    · rw [splitOnSub_form hpre hp hstart, Request.addParts, addPart_piece hpre hq hp, seenPairs, if_neg hstart]
      exact ih (fun p hp => hwf p (List.mem_cons_of_mem _ hp)) List.not_mem_nil List.not_mem_nil _

/-- A part that is read as it was written: its content does not begin with the dashes, and in a file
part the name does not end in `filename=`, and the content type found in the head, if any, is the
content. -/
def Reads (B : Boundary) (pre : Bytes) (p : Part) : Prop :=
  ¬ B.dashes <+: p.content ∧ ∀ name filename type content, p = .file name filename type content →
    ¬ ascii "filename=" <:+ name ∧ ∀ t, seenType pre p = some t → t = content

/-- All parts are read as they were written; `pre` is in front of the first head. -/
def Readable (B : Boundary) : Bytes → List Part → Prop
  | _, [] => True
  | pre, p :: ps => Reads B pre p ∧ Readable B [] ps

theorem seenFilename_eq {name filename : Bytes} : seenFilename name filename = filename ↔ ¬ ascii "filename=" <:+ name := by
  unfold seenFilename
  split
  · simp only [not_true, iff_false, *]
    intro h
    exact absurd (List.append_left_eq_self.1 h) (by decide)
  · simp [*]

theorem seen_eq_value : p.seen pre = p.value ↔ ∀ name filename type content, p = .file name filename type content →
    ¬ ascii "filename=" <:+ name ∧ ∀ t, seenType pre p = some t → t = content := by
  match p with
  | .text name content => simp [Part.seen, Part.value]
  | .file name filename type content =>
    have hcontent : (seenType pre (.file name filename type content)).getD content = content ↔
        ∀ t, seenType pre (.file name filename type content) = some t → t = content := by
      cases seenType pre (.file name filename type content) <;> simp
    rw [Part.seen, Part.value, FormValue.file.injEq, seenFilename_eq, hcontent]
    constructor
    · rintro ⟨hf, hc, -⟩ _ _ _ _ ⟨⟩
      exact ⟨hf, hc⟩
    · intro h
      exact ⟨(h _ _ _ _ rfl).1, (h _ _ _ _ rfl).2, rfl⟩

theorem seenPairs_eq_iff {parts : List Part} :
    seenPairs B pre parts = parts.map (fun p => (p.name, p.value)) ↔ Readable B pre parts := by
  induction parts generalizing pre with
  | nil => simp [seenPairs, Readable]
  | cons p ps ih =>
    rw [seenPairs, Readable, Reads, ← seen_eq_value, List.map_cons, ← ih]
    by_cases hstart : B.dashes <+: p.content
    · simp [hstart]
    · simp [hstart]

theorem seenPairs_keys (B : Boundary) (pre : Bytes) (parts : List Part) :
    (seenPairs B pre parts).map Prod.fst <+: (parts.map fun p => (p.name, p.value)).map Prod.fst := by
  induction parts generalizing pre with
  | nil => exact List.nil_prefix
  | cons p ps ih =>
    rw [seenPairs]
    split
    · exact List.nil_prefix
    · simpa using ih []

/-- Each name has the values of its parts, in order. -/
def Decoded (bodyVars : Dict Bytes (List FormValue)) (parts : List Part) : Prop :=
  ∀ p ∈ parts, bodyVars.get? p.name = some ((parts.filter fun q => decide (q.name = p.name)).map Part.value)

theorem valuesOf_parts (k : Bytes) (parts : List Part) : Dict.valuesOf k (parts.map fun p => (p.name, p.value)) =
    (parts.filter fun q => decide (q.name = k)).map Part.value := by
  rw [Dict.valuesOf_eq, List.filter_map, List.map_map]; rfl

/-- Pushing the pairs that were read decodes the form if and only if these are the pairs written. -/
theorem decoded_pushAll_iff {parts : List Part} :
    Decoded (Dict.pushAll .empty (seenPairs B pre parts)) parts ↔ Readable B pre parts := by
  rw [← seenPairs_eq_iff]
  constructor
  · intro h
    refine Dict.eq_of_valuesOf_eq (seenPairs_keys B pre parts) fun k hk => ?_
    simp only [List.map_map, List.mem_map] at hk
    obtain ⟨p, hp, rfl⟩ := hk
    have hget := h p hp
    rw [← valuesOf_parts] at hget
    by_cases hmem : p.name ∈ (seenPairs B pre parts).map Prod.fst
    · rw [Dict.get?_pushAll_empty_of_mem hmem] at hget
      exact Option.some.inj hget
    · rw [Dict.get?_pushAll_empty_of_not_mem hmem] at hget
      cases hget
  · intro h p hp
    have hmem : p.name ∈ (parts.map fun p => (p.name, p.value)).map Prod.fst := by
      simp only [List.map_map, List.mem_map]
      exact ⟨p, hp, rfl⟩
    rw [h, Dict.get?_pushAll_empty_of_mem hmem, valuesOf_parts]

/-- The content type of a form. -/
def formType (B : Boundary) : Bytes := ascii "multipart/form-data; boundary=" ++ B.text

theorem parseBody_form (jsonLoads : Bytes → Except JSONDecodeError Unit) {r : Request} (hne : r.body ≠ []) :
    r.parseBody jsonLoads (formType B) =
      (.ok (), { r with bodyVars := Request.addParts r.bodyVars (splitOnSub B.delimiter r.body) }) := by
  have hurl : ¬ ascii "application/x-www-form-urlencoded" <+: formType B :=
    fun h => absurd (List.cons_prefix_cons.1 h).1 (by decide)
  have hmulti : ascii "multipart/form-data" <+: formType B :=
    (show ascii "multipart/form-data" <+: ascii "multipart/form-data; boundary=" by decide).trans
      (List.prefix_append _ _)
  have hsearch : search (ascii "multipart/form-data; boundary=") (restOfLine lf) (formType B) = some B.text :=
    search_prefix (by decide) (restOfLine_eq B.lf_not_mem)
  have hdelimiter : ascii "\r\n--" ++ B.text = B.delimiter := rfl
  rw [Request.parseBody, if_neg hurl, if_pos hmulti, hsearch]
  simp only [if_neg hne, hdelimiter]

theorem readContentType_form {r : Request} (hc : r.contentType = none)
    (ht : r.getHeader (ascii "content-type") = some (formType B)) :
    r.readContentType = (some (formType B), { r with contentType := some (formType B) }) := by
  have hf : Request.Falsy r.contentType := .inl hc
  simp only [Request.readContentType, hf, if_true, ht]

/-- A form is received whole, split at its delimiter and read piece by piece. -/
theorem receiveForm_form (jsonLoads : Bytes → Except JSONDecodeError Unit) {messages : List ReceiveMessage}
    {body : Bytes} (hne : body ≠ []) (hcut : Request.Delivers messages body) {r : Request} (hb : r.body = [])
    (hc : r.contentType = none) (ht : r.getHeader (ascii "content-type") = some (formType B)) :
    ∃ r', r.receiveForm jsonLoads messages = some (.ok (), r', []) ∧
      r'.bodyVars = Request.addParts r.bodyVars (splitOnSub B.delimiter body) := by
  have hread := readContentType_form (B := B) (r := { r with body := body }) hc ht
  have hparse := parseBody_form (B := B) jsonLoads
    (r := { r with body := body, contentType := some (formType B) }) hne
  obtain ⟨b, l, hbl⟩ : ∃ b l, formType B = b :: l := ⟨_, _, rfl⟩
  rw [hbl] at hread hparse
  refine ⟨{ r with
    body := body
    contentType := some (b :: l)
    bodyVars := Request.addParts r.bodyVars (splitOnSub B.delimiter body) }, ?_, rfl⟩
  simp only [Request.receiveForm, hb, Request.receiveBody_delivers hcut, List.nil_append, Option.bind_eq_bind,
    Option.bind_some, hread, hparse]
  rfl

/-- `parse_form` receives a form however it is cut, and pushes the pairs that are read. -/
theorem parseForm_form (jsonLoads : Bytes → Except JSONDecodeError Unit) {scope : Scope} {parts : List Part}
    {messages : List ReceiveMessage} (hpost : scope.method = "POST")
    (htype : (Request.init scope).getHeader (ascii "content-type") = some (formType B))
    (hwf : ∀ p ∈ parts, p.WellFormed B) (hcut : Request.Delivers messages (encodeForm B parts)) :
    ∃ r, (Request.init scope).parseForm jsonLoads messages = some (.ok (), r, []) ∧
      r.bodyVars = Dict.pushAll .empty (seenPairs B B.dashes parts) := by
  have hcr : cr ∉ B.dashes := by
    rw [Boundary.dashes, List.mem_append, not_or]; exact ⟨by decide, B.cr_not_mem⟩
  have hquote : quote ∉ B.dashes := by
    rw [Boundary.dashes, List.mem_append, not_or]; exact ⟨by decide, B.quote_not_mem⟩
  have hne : B.dashes ++ restOfForm B parts ≠ [] := List.cons_ne_nil _ _
  rw [encodeForm_eq] at hcut
  have hread : ∀ r : Request, r.body = [] → r.contentType = none → r.bodyVars = .empty →
      r.getHeader (ascii "content-type") = some (formType B) →
      ∃ r', r.receiveForm jsonLoads messages = some (.ok (), r', []) ∧
        r'.bodyVars = Dict.pushAll .empty (seenPairs B B.dashes parts) := by
    intro r hb hc hvars ht
    obtain ⟨r', hr', hv⟩ := receiveForm_form jsonLoads hne hcut hb hc ht
    exact ⟨r', hr', by rw [hv, hvars, addParts_form hwf hcr hquote]⟩
  have hpost' : (Request.init scope).method = "POST" := hpost
  unfold Request.parseForm
  by_cases hq : (Request.init scope).queryString = []
  · simp only [hq, if_true, hpost']
    exact hread _ rfl rfl rfl htype
  · simp only [hq, if_false, hpost', if_true]
    exact hread _ rfl rfl rfl htype

/-- `parse_form` decodes a form, cut anywhere into messages, if and only if all its parts are
readable. -/
theorem parse_form_decodes_iff (jsonLoads : Bytes → Except JSONDecodeError Unit) (scope : Scope) (B : Boundary)
    (parts : List Part) (messages : List ReceiveMessage) (hpost : scope.method = "POST")
    (htype : (Request.init scope).getHeader (ascii "content-type") = some (formType B))
    (hwf : ∀ p ∈ parts, p.WellFormed B) (hcut : Request.Delivers messages (encodeForm B parts)) :
    ∃ r, (Request.init scope).parseForm jsonLoads messages = some (.ok (), r, []) ∧
      (Decoded r.bodyVars parts ↔ Readable B B.dashes parts) := by
  obtain ⟨r, hr, hvars⟩ := parseForm_form jsonLoads hpost htype hwf hcut
  exact ⟨r, hr, by rw [hvars, decoded_pushAll_iff]⟩

/-! ## Two forms -/

def boundaryX : Boundary := ⟨ascii "X", by decide, by decide, by decide⟩

/-- A `POST` request with a form. -/
def formScope : Scope := ⟨"POST", "/", [], some [[ascii "content-type", formType boundaryX]]⟩

/-- A text field and a file without a content type. -/
def plainForm : List Part := [.text (ascii "a") (ascii "1"), .file (ascii "f") (ascii "n.txt") none (ascii "hello")]

theorem wellFormed_plainForm : ∀ p ∈ plainForm, p.WellFormed boundaryX := by
  intro p hp
  rcases List.mem_pair.1 hp with rfl | rfl
  · refine ⟨⟨by decide, by decide, by decide⟩, ?_, ?_, by decide⟩
    · rintro _ _ _ _ ⟨⟩
    · rintro _ _ _ _ ⟨⟩
  · refine ⟨⟨by decide, by decide, by decide⟩, ?_, ?_, by decide⟩
    · rintro _ _ _ _ ⟨⟩
      exact ⟨by decide, by decide, by decide, by decide⟩
    · rintro _ _ _ _ ⟨⟩

/-- It is decoded, also when it comes in two messages. -/
theorem parse_form_decodes_iff_plain :
    ∃ r, (Request.init formScope).parseForm (fun _ => .ok ())
        [⟨some ((encodeForm boundaryX plainForm).take 9), some true⟩,
          ⟨some ((encodeForm boundaryX plainForm).drop 9), none⟩] = some (.ok (), r, []) ∧
      Decoded r.bodyVars plainForm := by
  obtain ⟨r, hr, h⟩ := parse_form_decodes_iff (fun _ => .ok ()) formScope boundaryX plainForm
    [⟨some ((encodeForm boundaryX plainForm).take 9), some true⟩,
      ⟨some ((encodeForm boundaryX plainForm).drop 9), none⟩] rfl (by decide) wellFormed_plainForm
    ⟨[_], _, rfl, by simp, by simp, by simp⟩
  refine ⟨r, hr, h.2 ⟨⟨by decide, fun _ _ _ _ h => by cases h⟩, ⟨by decide, ?_⟩, trivial⟩⟩
  rintro _ _ _ _ ⟨⟩
  refine ⟨by decide, fun t ht => ?_⟩
  rw [show seenType [] (.file (ascii "f") (ascii "n.txt") none (ascii "hello")) = none by decide] at ht
  cases ht

/-- A file with a content type. -/
def typedForm : List Part := [.file (ascii "f") (ascii "n.txt") (some (ascii "text/plain")) (ascii "hello")]

theorem wellFormed_typedForm : ∀ p ∈ typedForm, p.WellFormed boundaryX := by
  intro p hp
  obtain rfl := List.mem_singleton.1 hp
  refine ⟨⟨by decide, by decide, by decide⟩, ?_, ?_, by decide⟩ <;> rintro _ _ _ _ ⟨⟩
  · exact ⟨by decide, by decide, by decide, by decide⟩
  · exact ⟨by decide, by decide, by decide⟩

/-- It is decoded with its content type for its content. -/
theorem parse_form_decodes_fails :
    ∃ r, (Request.init formScope).parseForm (fun _ => .ok ()) [⟨some (encodeForm boundaryX typedForm), none⟩] =
        some (.ok (), r, []) ∧
      r.bodyVars.get? (ascii "f") = some [.file (ascii "n.txt") (ascii "text/plain") (ascii "f")] ∧
      ¬ Decoded r.bodyVars typedForm := by
  have hpost : formScope.method = "POST" := rfl
  have hcut : Request.Delivers [⟨some (encodeForm boundaryX typedForm), none⟩] (encodeForm boundaryX typedForm) :=
    ⟨[], _, rfl, by simp, by simp, by simp⟩
  obtain ⟨r, hr, hvars⟩ := parseForm_form (fun _ => .ok ()) hpost (by decide) wellFormed_typedForm hcut
  have hseen : seenPairs boundaryX boundaryX.dashes typedForm =
      [(ascii "f", .file (ascii "n.txt") (ascii "text/plain") (ascii "f"))] := by decide
  have hget : r.bodyVars.get? (ascii "f") = some [.file (ascii "n.txt") (ascii "text/plain") (ascii "f")] := by
    rw [hvars, hseen]; rfl
  refine ⟨r, hr, hget, fun h => ?_⟩
  have hf := (h _ List.mem_cons_self).symm.trans hget
  exact absurd hf (by decide)

end GoodGoodStudy.Dali
