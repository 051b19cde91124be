import PlacitumNode.Agent.Conf

/-!
# Layouts of the configuration file of the agent

A document is a list of blocks of settings.  A layout says how each block is written: on one line or
over several, with or without `;`, with which blanks, blank lines and comments.

* `Document`, `Layout`, `Layout.text`: every layout and every document that fits it give a file;
* `line_of_body`: what `feed` makes of indentation, terminators and comments;
* `readText_layout`: what a file says, in every layout;
* `layout_iff`: two layouts say the same of all documents just when the same is left of their `;`.
-/

namespace AgentConf

open Octets

/-! ### Documents -/

/-- Without braces, `;`, `#`, quotes and line breaks. -/
def Plain (s : Bytes) : Prop := ∀ b ∈ s, b ∉ [10, 34, 35, 59, 123, 125]

structure Value where
  bytes : Bytes
  plain : Plain bytes
  trimmed : trimSpace bytes = bytes

structure Name extends Value where
  ne : bytes ≠ []

/-- A name without blanks. -/
structure Key extends Name where
  solid : ∀ b ∈ bytes, isSpace b = false

structure Entry where
  key : Key
  value : Value

structure Block where
  name : Name
  entries : List Entry

abbrev Document := List Block

/-! ### Layouts -/

/-- The blanks that a line has: tab, vertical tab, form feed, carriage return and space. -/
def Blanks (s : Bytes) : Prop := ∀ b ∈ s, b ∈ [9, 11, 12, 13, 32]

structure Gap where
  bytes : Bytes
  blanks : Blanks bytes

/-- Between a key and its value. -/
structure Separator extends Gap where
  ne : bytes ≠ []

structure Comment where
  text : Bytes
  oneLine : 10 ∉ text

def commentBytes : Option Comment → Bytes
  | none => []
  | some c => 35 :: c.text

def semicolon (semi : Bool) : Bytes := if semi then [59] else []

/-- A line that says nothing. -/
structure Filler where
  pad : Gap
  comment : Option Comment

def Filler.bytes (f : Filler) : Bytes := f.pad.bytes ++ commentBytes f.comment

/-- What stands behind a value or a closing brace. -/
structure Ending where
  gap : Gap
  semi : Bool
  pad : Gap
  comment : Option Comment

def Ending.bytes (e : Ending) : Bytes :=
  e.gap.bytes ++ (semicolon e.semi ++ (e.pad.bytes ++ commentBytes e.comment))

/-- A setting on a line of its own. -/
structure Line where
  above : List Filler
  indent : Gap
  sep : Separator
  ending : Ending

/-- A block with one setting on one line; `stop` is what stands before a `;` behind the value. -/
structure OneLine where
  above : List Filler
  indent : Gap
  gap : Gap
  pad : Gap
  sep : Separator
  stop : Option Gap
  back : Gap
  ending : Ending

/-- A block over several lines. -/
structure Several where
  above : List Filler
  indent : Gap
  gap : Gap
  pad : Gap
  comment : Option Comment
  lines : List Line
  below : List Filler
  close : Gap
  ending : Ending

inductive Form
  | oneLine (l : OneLine)
  | several (l : Several)

structure Layout where
  forms : List Form
  below : List Filler

/-- What is left of the `;` behind the value in a block on one line. -/
def OneLine.residue (l : OneLine) : Bytes :=
  match l.stop with
  | none => []
  | some g => g.bytes ++ [59]

/-! ### Files -/

def Line.render (l : Line) (e : Entry) : List Bytes :=
  l.above.map Filler.bytes ++
    [l.indent.bytes ++ (e.key.bytes ++ (l.sep.bytes ++ (e.value.bytes ++ l.ending.bytes)))]

def OneLine.render (l : OneLine) (name : Name) (e : Entry) : List Bytes :=
  l.above.map Filler.bytes ++
    [l.indent.bytes ++ (name.bytes ++ (l.gap.bytes ++ (123 :: (l.pad.bytes ++
      (e.key.bytes ++ (l.sep.bytes ++ (e.value.bytes ++ (l.residue ++
        (l.back.bytes ++ (125 :: l.ending.bytes))))))))))]

def Several.openLine (l : Several) (name : Name) : Bytes :=
  l.indent.bytes ++ (name.bytes ++ (l.gap.bytes ++ (123 :: (l.pad.bytes ++ commentBytes l.comment))))

def Several.closeLine (l : Several) : Bytes := l.close.bytes ++ (125 :: l.ending.bytes)

def Several.render (l : Several) (b : Block) : List Bytes :=
  l.above.map Filler.bytes ++ (l.openLine b.name ::
    ((List.zipWith Line.render l.lines b.entries).flatten ++
      (l.below.map Filler.bytes ++ [l.closeLine])))

/-- The number of settings of a block that is written so. -/
def Form.size : Form → ℕ
  | .oneLine _ => 1
  | .several l => l.lines.length

def Form.render : Form → Block → List Bytes
  | .oneLine l, b => b.entries.flatMap (l.render b.name)
  | .several l, b => l.render b

def Layout.shape (l : Layout) : List ℕ := l.forms.map Form.size

/-- The layout is one of the document. -/
def Layout.Fits (l : Layout) (doc : Document) : Prop := l.shape = doc.map fun b => b.entries.length

def Layout.lines (l : Layout) (doc : Document) : List Bytes :=
  (List.zipWith Form.render l.forms doc).flatten ++ l.below.map Filler.bytes

def Layout.text (l : Layout) (doc : Document) : Bytes := [10].intercalate (l.lines doc)

/-- What is left of a `;` behind each setting. -/
def Form.residues : Form → List Bytes
  | .oneLine l => [l.residue]
  | .several l => l.lines.map fun _ => []

def Layout.residues (l : Layout) : List Bytes := l.forms.flatMap Form.residues

/-! ### Bytes -/

/-- The bytes that matter, one by one. -/
theorem byte_table :
    ([] ∉ spaces ∧ ∀ b ∈ ([59, 123, 125] : Bytes), ∀ p ∈ spaces, b ∉ p) ∧
    (∀ b ∈ ([9, 11, 12, 13, 32] : Bytes),
      ([b] ∈ spaces ∧ ∀ p ∈ spaces, b ∈ p → p = [b]) ∧ isSpace b = true) ∧
    (∀ b ∈ ([10, 34, 35, 59, 123, 125] : Bytes), b ∉ ([9, 11, 12, 13, 32] : Bytes)) ∧
    (∀ b ∈ ([10, 34, 35, 123, 125] : Bytes),
      b ∈ ([10, 34, 35, 59, 123, 125] : Bytes) ∧ b ≠ 59) ∧
    ∀ b ∈ ([34, 35] : Bytes), b ∈ ([10, 34, 35, 123, 125] : Bytes) ∧ b ≠ 123 ∧ b ≠ 125 := by
  refine ⟨⟨?_, ?_⟩, ?_, ?_, ?_, ?_⟩ <;> decide +kernel

theorem spaces_ne : [] ∉ spaces := byte_table.1.1

theorem blank_of_mem {b : UInt8} (h : b ∈ [9, 11, 12, 13, 32]) : Trim.Blank spaces b :=
  ⟨(byte_table.2.1 b h).1.1, (byte_table.2.1 b h).1.2⟩

theorem firm_of_mem {b : UInt8} (h : b ∈ [59, 123, 125]) : Trim.Firm spaces b := byte_table.1.2 b h

/-- A byte that ends a line but not a value in a block on one line. -/
theorem special_of_inner {b : UInt8} (h : b ∈ [10, 34, 35, 123, 125]) :
    b ∈ ([10, 34, 35, 59, 123, 125] : Bytes) ∧ b ≠ 59 := byte_table.2.2.2.1 b h

/-- A quote or the mark of a comment. -/
theorem inner_of_mark {b : UInt8} (h : b ∈ [34, 35]) :
    b ∈ ([10, 34, 35, 123, 125] : Bytes) ∧ b ≠ 123 ∧ b ≠ 125 := byte_table.2.2.2.2 b h

theorem Blanks.blank {s : Bytes} (h : Blanks s) : ∀ b ∈ s, Trim.Blank spaces b :=
  fun b hb => blank_of_mem (h b hb)

theorem Blanks.append {s t : Bytes} (hs : Blanks s) (ht : Blanks t) : Blanks (s ++ t) := by
  intro b hb
  rcases List.mem_append.1 hb with hb | hb
  · exact hs b hb
  · exact ht b hb

theorem Blanks.space {s : Bytes} (h : Blanks s) : ∀ b ∈ s, isSpace b = true :=
  fun b hb => (byte_table.2.1 b (h b hb)).2

/-- Without the bytes that a line is cut at. -/
theorem Blanks.not_mem {s : Bytes} (h : Blanks s) {b : UInt8} (hb : b ∈ [10, 34, 35, 59, 123, 125]) :
    b ∉ s := fun hmem => byte_table.2.2.1 b hb (h b hmem)

theorem Plain.not_mem {s : Bytes} (h : Plain s) {b : UInt8} (hb : b ∈ [10, 34, 35, 59, 123, 125]) :
    b ∉ s := fun hmem => h b hmem hb

theorem Value.core (v : Value) (h : v.bytes ≠ []) : Trim.Core spaces v.bytes :=
  Trim.core_of_both spaces_ne h v.trimmed

theorem Name.core (n : Name) : Trim.Core spaces n.bytes := n.toValue.core n.ne

theorem trim_core {s g g' : Bytes} (h : Trim.Core spaces s) (hg : Blanks g) (hg' : Blanks g') :
    trimSpace (g ++ (s ++ g')) = s := Trim.both_core spaces_ne h hg.blank hg'.blank

/-! ### Terminators and comments -/

theorem cutComment_eq {s : Bytes} (hquote : 34 ∉ s) (hmark : 35 ∉ s) (c : Option Comment) :
    cutComment false (s ++ commentBytes c) = s := by
  induction s with
  | nil => cases c <;> rfl
  | cons b s ih =>
    rw [List.mem_cons, not_or] at hquote hmark
    rw [List.cons_append, cutComment, if_neg (Ne.symm hquote.1), if_neg (fun h => hmark.1 h.1.symm),
      ih hquote.2 hmark.2]

theorem strip_filler (f : Filler) : stripComment f.bytes = [] := by
  have hpad := f.pad.blanks
  rw [stripComment, Filler.bytes, cutComment_eq (hpad.not_mem (by decide)) (hpad.not_mem (by decide))]
  exact Trim.both_blank spaces_ne hpad.blank

/-- Blanks and one of the signs that end something. -/
theorem alone_of_head {g : Bytes} (hg : Blanks g) {c : UInt8} (hc : c ∈ [59, 123, 125]) (t : Bytes) :
    ∀ b ∈ (g ++ c :: t).head?, Trim.Alone spaces b := by
  cases g with
  | nil =>
    intro b hb
    cases hb
    exact (firm_of_mem hc).alone
  | cons a g =>
    intro b hb
    cases hb
    exact (blank_of_mem (hg a List.mem_cons_self)).alone

theorem core_cap {s g : Bytes} (hs : Trim.Core spaces s) (hg : Blanks g) {c : UInt8}
    (hc : c ∈ [59, 123, 125]) : Trim.Core spaces (s ++ (g ++ [c])) :=
  hs.cap spaces_ne (alone_of_head hg hc []) (firm_of_mem hc)

/-- **The indentation, the terminator and the comment are taken off.** -/
theorem line_of_body {indent body gap pad : Bytes} (hbody : Trim.Core spaces body)
    (hquote : 34 ∉ body) (hmark : 35 ∉ body) (hlast : body.getLast? ≠ some 59)
    (hindent : Blanks indent) (hgap : Blanks gap) (hpad : Blanks pad) (semi : Bool)
    (c : Option Comment) :
    let raw := indent ++ (body ++ (gap ++ (semicolon semi ++ (pad ++ commentBytes c))))
    stripComment raw ≠ [] ∧ trimSpace (trimSuffix (stripComment raw) 59) = body := by
  intro raw
  have hsemi : ∀ b ∈ ([34, 35] : Bytes), b ∉ semicolon semi := by
    intro b hb
    have hne := (special_of_inner (inner_of_mark hb).1).2
    cases semi <;> simp [semicolon, hne]
  have hcut : ∀ b ∈ ([34, 35] : Bytes), b ∉ body →
      b ∉ indent ++ (body ++ (gap ++ (semicolon semi ++ pad))) := by
    intro b hb hnot
    have hmem := (special_of_inner (inner_of_mark hb).1).1
    simp only [List.mem_append, not_or]
    exact ⟨hindent.not_mem hmem, hnot, hgap.not_mem hmem, hsemi b hb, hpad.not_mem hmem⟩
  have hraw : raw = (indent ++ (body ++ (gap ++ (semicolon semi ++ pad)))) ++ commentBytes c := by
    simp only [raw, List.append_assoc]
  have hblank : Blanks [] := fun b hb => by cases hb
  have hself : trimSpace body = body := by
    have h := trim_core hbody hblank hblank
    rwa [List.nil_append, List.append_nil] at h
  rw [hraw, stripComment, cutComment_eq (hcut 34 (by decide) hquote) (hcut 35 (by decide) hmark)]
  -- The only `;` that can end the line is the terminator: the body does not end with one.
  cases semi with
  | false =>
    have hstrip : trimSpace (indent ++ (body ++ (gap ++ (semicolon false ++ pad)))) = body :=
      trim_core hbody hindent (hgap.append hpad)
    rw [hstrip, trimSuffix, if_neg hlast]
    exact ⟨hbody.ne, hself⟩
  | true =>
    have hcap := core_cap hbody hgap (c := 59) (by decide)
    have hstrip : trimSpace (indent ++ (body ++ (gap ++ (semicolon true ++ pad)))) =
        body ++ (gap ++ [59]) := by
      have h := trim_core hcap hindent hpad
      rw [List.append_assoc, List.append_assoc] at h
      exact h
    have hdrop : trimSuffix (body ++ (gap ++ [59])) 59 = body ++ gap := by
      rw [trimSuffix, ← List.append_assoc, if_pos (by simp), List.dropLast_concat]
    rw [hstrip, hdrop]
    exact ⟨hcap.ne, trim_core hbody hblank hgap⟩

/-! ### A key and a value -/

/-- What is left of a key and a value when the blanks behind them are gone. -/
def joined (key sep value : Bytes) : Bytes := if value = [] then key else key ++ (sep ++ value)

section

variable {key sep value : Bytes}

theorem joined_core (hkey : Trim.Core spaces key) (hsep : Blanks sep) (hne : sep ≠ [])
    (hvalue : value = [] ∨ Trim.Core spaces value) : Trim.Core spaces (joined key sep value) := by
  rw [joined]
  split_ifs with h
  · exact hkey
  · refine hkey.bridge (hvalue.resolve_left h) ?_ ?_ hne
    · exact fun b hb => (blank_of_mem (hsep b (List.mem_of_mem_head? hb))).alone
    · exact fun b hb => (blank_of_mem (hsep b (List.mem_of_mem_getLast? hb))).alone

/-- Where the value is empty the blanks before it are blanks behind the key. -/
theorem joined_gap (key value : Bytes) (hsep : Blanks sep) {gap : Bytes} (hgap : Blanks gap) :
    ∃ g, Blanks g ∧ ∀ t, key ++ (sep ++ (value ++ (gap ++ t))) = joined key sep value ++ (g ++ t) := by
  by_cases h : value = []
  · refine ⟨sep ++ gap, hsep.append hgap, fun t => ?_⟩
    rw [joined, if_pos h, h, List.nil_append, List.append_assoc]
  · refine ⟨gap, hgap, fun t => ?_⟩
    rw [joined, if_neg h, List.append_assoc, List.append_assoc]

theorem mem_joined {b : UInt8} (h : b ∈ joined key sep value) : b ∈ key ∨ b ∈ sep ∨ b ∈ value := by
  rw [joined] at h
  split_ifs at h
  · exact .inl h
  · simpa [List.mem_append] using h

theorem splitKey_joined (hkey : Trim.Core spaces key) (hsolid : ∀ b ∈ key, isSpace b = false)
    (hsep : Blanks sep) (hne : sep ≠ []) (hvalue : value = [] ∨ Trim.Core spaces value) :
    splitKey (joined key sep value) = (key, value) := by
  have hblank : Blanks [] := fun b hb => by cases hb
  have hself : trimSpace (joined key sep value) = joined key sep value := by
    have h := trim_core (joined_core hkey hsep hne hvalue) hblank hblank
    rwa [List.nil_append, List.append_nil] at h
  have hall : ∀ b ∈ key, (!isSpace b) = true := fun b hb => by rw [hsolid b hb]; rfl
  rw [splitKey, hself, joined]
  split_ifs with h
  · have hdrop : key.dropWhile (!isSpace ·) = [] := List.dropWhile_eq_nil_iff.2 hall
    rw [List.takeWhile_eq_self_iff.2 hall, hdrop, h]
    exact congrArg (Prod.mk key) (Trim.both_blank spaces_ne hblank.blank)
  · obtain ⟨b, rest, rfl⟩ := List.exists_cons_of_ne_nil hne
    have hb : ¬(!isSpace b) = true := by rw [hsep.space b List.mem_cons_self]; decide
    have htrim := trim_core (hvalue.resolve_left h) hsep hblank
    rw [List.append_nil] at htrim
    rw [List.takeWhile_append_of_pos hall, List.dropWhile_append_of_pos hall, List.cons_append,
      List.takeWhile_cons_of_neg (p := (!isSpace ·)) hb,
      List.dropWhile_cons_of_neg (p := (!isSpace ·)) hb, List.append_nil, ← List.cons_append, htrim]

end

/-! ### What a line says -/

theorem readLine_filler (block : Bytes) (f : Filler) : readLine block f.bytes = .ok (none, block) := by
  simp only [readLine, strip_filler, if_true]

/-- A key, and a value that need not be plain. -/
theorem core_of_value (v : Value) : v.bytes = [] ∨ Trim.Core spaces v.bytes :=
  or_iff_not_imp_left.2 v.core

theorem readLine_entry {block : Bytes} (hblock : block ≠ []) (l : Line) (e : Entry) :
    readLine block
        (l.indent.bytes ++ (e.key.bytes ++ (l.sep.bytes ++ (e.value.bytes ++ l.ending.bytes)))) =
      .ok (some ⟨block, e.key.bytes, e.value.bytes⟩, block) := by
  have hvalue := core_of_value e.value
  have hcore := joined_core e.key.core l.sep.blanks l.sep.ne hvalue
  have hno : ∀ b ∈ ([10, 34, 35, 59, 123, 125] : Bytes),
      b ∉ joined e.key.bytes l.sep.bytes e.value.bytes := by
    intro b hb hmem
    rcases mem_joined hmem with h | h | h
    · exact e.key.plain.not_mem hb h
    · exact l.sep.blanks.not_mem hb h
    · exact e.value.plain.not_mem hb h
  obtain ⟨g, hg, hraw⟩ := joined_gap e.key.bytes e.value.bytes l.sep.blanks l.ending.gap.blanks
  have hlast : (joined e.key.bytes l.sep.bytes e.value.bytes).getLast? ≠ some 59 :=
    fun h => hno 59 (by decide) (List.mem_of_mem_getLast? h)
  obtain ⟨hne, hline⟩ := line_of_body hcore (hno 34 (by decide)) (hno 35 (by decide)) hlast
    l.indent.blanks hg l.ending.pad.blanks l.ending.semi l.ending.comment
  have hbrace : joined e.key.bytes l.sep.bytes e.value.bytes ≠ [125] :=
    fun h => hno 125 (by decide) (h ▸ List.mem_singleton_self 125)
  have hkey := splitKey_joined e.key.core e.key.solid l.sep.blanks l.sep.ne hvalue
  rw [Ending.bytes, hraw]
  simp only [readLine]
  rw [if_neg hne, hline, if_neg hbrace, if_neg (hno 123 (by decide)), if_neg hblock, hkey,
    if_neg e.key.ne]

theorem readLine_close {block : Bytes} (hblock : block ≠ []) (l : Several) :
    readLine block l.closeLine = .ok (none, []) := by
  have hcore : Trim.Core spaces [125] := (firm_of_mem (by decide)).core spaces_ne
  obtain ⟨hne, hline⟩ := line_of_body hcore (by decide) (by decide) (by decide) l.close.blanks
    l.ending.gap.blanks l.ending.pad.blanks l.ending.semi l.ending.comment
  have hraw : l.closeLine = l.close.bytes ++ ([125] ++ l.ending.bytes) := rfl
  rw [hraw, Ending.bytes]
  simp only [readLine]
  rw [if_neg hne, hline, if_pos rfl, if_neg hblock]

theorem takeWhile_brace {s : Bytes} (h : 123 ∉ s) (t : Bytes) :
    (s ++ 123 :: t).takeWhile (· ≠ 123) = s ∧ ((s ++ 123 :: t).dropWhile (· ≠ 123)).drop 1 = t := by
  have hall : ∀ b ∈ s, decide (b ≠ 123) = true :=
    fun b hb => decide_eq_true fun heq => h (heq ▸ hb)
  rw [List.takeWhile_append_of_pos hall, List.dropWhile_append_of_pos hall]
  simp

theorem head_not_mem (name : Name) (gap : Gap) {b : UInt8}
    (hb : b ∈ ([10, 34, 35, 59, 123, 125] : Bytes)) : b ∉ name.bytes ++ gap.bytes := by
  rw [List.mem_append, not_or]
  exact ⟨name.plain.not_mem hb, gap.blanks.not_mem hb⟩

/-- What a line says that opens a block. -/
def opened (name : Name) : Except Fault (Option Setting × Bytes) :=
  if name.bytes ∈ blocks then .ok (none, name.bytes) else .error (.unknownBlock name.bytes)

theorem readLine_open (l : Several) (name : Name) :
    readLine [] (l.openLine name) = opened name := by
  have hblank : Blanks [] := fun b hb => by cases hb
  have hcore := core_cap name.core l.gap.blanks (c := 123) (by decide)
  have hno : ∀ b ∈ ([34, 35] : Bytes), b ∉ name.bytes ++ (l.gap.bytes ++ [123]) := by
    intro b hb
    have hmem := inner_of_mark hb
    rw [← List.append_assoc, List.mem_append, List.mem_singleton, not_or]
    exact ⟨head_not_mem name l.gap (special_of_inner hmem.1).1, hmem.2.1⟩
  have hlast : (name.bytes ++ (l.gap.bytes ++ [123])).getLast? ≠ some 59 := by
    rw [← List.append_assoc, List.getLast?_concat]
    decide
  obtain ⟨hne, hline⟩ := line_of_body hcore (hno 34 (by decide)) (hno 35 (by decide)) hlast
    l.indent.blanks l.pad.blanks hblank false l.comment
  have hraw : l.openLine name = l.indent.bytes ++ ((name.bytes ++ (l.gap.bytes ++ [123])) ++
      (l.pad.bytes ++ (semicolon false ++ ([] ++ commentBytes l.comment)))) := by
    simp [Several.openLine, semicolon, List.append_assoc]
  have hbrace : name.bytes ++ (l.gap.bytes ++ [123]) ≠ [125] := by
    intro h
    have hlast := congrArg List.getLast? h
    rw [← List.append_assoc, List.getLast?_concat] at hlast
    exact absurd hlast (by decide)
  have hnot := head_not_mem name l.gap (b := 123) (by decide)
  obtain ⟨htake, hdrop⟩ := takeWhile_brace hnot []
  rw [List.append_assoc] at htake hdrop
  have hname := trim_core name.core hblank l.gap.blanks
  rw [List.nil_append] at hname
  have hempty : trimSpace [] = [] := Trim.both_blank spaces_ne hblank.blank
  rw [hraw]
  simp only [readLine]
  rw [if_neg hne, hline, if_neg hbrace, if_pos (by simp), htake, hname, hdrop, if_neg name.ne,
    if_neg (by simp), opened, hempty]
  by_cases hmem : name.bytes ∈ blocks
  · rw [if_neg (not_not_intro hmem), if_neg (by simp), if_neg (by simp), if_pos hmem]
  · rw [if_pos hmem, if_neg hmem]

/-- The value that a block on one line has. -/
def tailed (value residue : Bytes) : Bytes := trimSpace (value ++ residue)

theorem tailed_gap (v : Value) (l : OneLine) :
    ∃ g, Blanks g ∧ v.bytes ++ l.residue = g ++ tailed v.bytes l.residue ∧
      (tailed v.bytes l.residue = [] ∨ Trim.Core spaces (tailed v.bytes l.residue)) := by
  have hblank : Blanks [] := fun b hb => by cases hb
  rw [OneLine.residue, tailed]
  cases l.stop with
  | none =>
    rw [List.append_nil, v.trimmed]
    exact ⟨[], hblank, rfl, core_of_value v⟩
  | some g =>
    by_cases hv : v.bytes = []
    · have hcore : Trim.Core spaces [59] := (firm_of_mem (by decide)).core spaces_ne
      have htrim := trim_core hcore g.blanks hblank
      rw [List.append_nil] at htrim
      rw [hv, List.nil_append, htrim]
      exact ⟨g.bytes, g.blanks, rfl, .inr hcore⟩
    · have hcore := core_cap (v.core hv) g.blanks (c := 59) (by decide)
      have htrim := trim_core hcore hblank hblank
      rw [List.nil_append, List.append_nil] at htrim
      rw [htrim]
      exact ⟨[], hblank, rfl, .inr hcore⟩

/-- The setting in a block on one line, from the key on. -/
def OneLine.inner (l : OneLine) (e : Entry) : Bytes :=
  e.key.bytes ++ (l.sep.bytes ++ (e.value.bytes ++ (l.residue ++ l.back.bytes)))

/-- A block on one line, without what stands around it. -/
def OneLine.body (l : OneLine) (name : Name) (e : Entry) : Bytes :=
  name.bytes ++ (l.gap.bytes ++ 123 :: (l.pad.bytes ++ l.inner e) ++ [125])

theorem residue_not_mem (l : OneLine) {b : UInt8} (hb : b ∈ ([10, 34, 35, 123, 125] : Bytes)) :
    b ∉ l.residue := by
  have hspecial := special_of_inner hb
  rw [OneLine.residue]
  cases l.stop with
  | none => exact List.not_mem_nil
  | some g =>
    rw [List.mem_append, List.mem_singleton, not_or]
    exact ⟨g.blanks.not_mem hspecial.1, hspecial.2⟩

theorem inner_not_mem (l : OneLine) (e : Entry) {b : UInt8}
    (hb : b ∈ ([10, 34, 35, 123, 125] : Bytes)) : b ∉ l.inner e := by
  have hspecial := (special_of_inner hb).1
  simp only [OneLine.inner, List.mem_append, not_or]
  exact ⟨e.key.plain.not_mem hspecial, l.sep.blanks.not_mem hspecial, e.value.plain.not_mem hspecial,
    residue_not_mem l hb, l.back.blanks.not_mem hspecial⟩

theorem inner_joined (l : OneLine) (e : Entry) :
    trimSpace (l.inner e) ≠ [] ∧
      splitKey (trimSpace (l.inner e)) = (e.key.bytes, tailed e.value.bytes l.residue) := by
  have hblank : Blanks [] := fun b hb => by cases hb
  obtain ⟨g, hg, heq, hvalue⟩ := tailed_gap e.value l
  have hsep := l.sep.blanks.append hg
  have hne : l.sep.bytes ++ g ≠ [] := by simp [l.sep.ne]
  obtain ⟨g', hg', hraw⟩ := joined_gap e.key.bytes (tailed e.value.bytes l.residue) hsep
    l.back.blanks
  have hcore := joined_core e.key.core hsep hne hvalue
  have hinner : l.inner e =
      joined e.key.bytes (l.sep.bytes ++ g) (tailed e.value.bytes l.residue) ++ g' := by
    have h := hraw []
    rw [List.append_nil, List.append_nil] at h
    rw [← h, OneLine.inner, ← List.append_assoc e.value.bytes, heq]
    simp only [List.append_assoc]
  have htrim := trim_core hcore hblank hg'
  rw [List.nil_append, ← hinner] at htrim
  rw [htrim]
  exact ⟨hcore.ne, splitKey_joined e.key.core e.key.solid hsep hne hvalue⟩

/-- What a line says that holds a block. -/
def held (name : Name) (e : Entry) (residue : Bytes) : Except Fault (Option Setting × Bytes) :=
  if name.bytes ∈ blocks then
    .ok (some ⟨name.bytes, e.key.bytes, tailed e.value.bytes residue⟩, [])
  else .error (.unknownBlock name.bytes)

theorem inner_core (l : OneLine) (e : Entry) : Trim.Core spaces (l.inner e ++ [125]) := by
  have hcore : Trim.Core spaces (e.key.bytes ++
      (l.sep.bytes ++ (e.value.bytes ++ (l.residue ++ l.back.bytes)) ++ [125])) := by
    refine e.key.core.cap spaces_ne ?_ (firm_of_mem (by decide))
    intro b hb
    rw [List.append_assoc, List.head?_append_of_ne_nil _ l.sep.ne] at hb
    exact (blank_of_mem (l.sep.blanks b (List.mem_of_mem_head? hb))).alone
  rwa [← List.append_assoc] at hcore

theorem body_core (l : OneLine) (name : Name) (e : Entry) :
    Trim.Core spaces (l.body name e) := by
  refine name.core.cap spaces_ne ?_ (firm_of_mem (by decide))
  rw [List.append_assoc, List.cons_append]
  exact alone_of_head l.gap.blanks (by decide) _

theorem readLine_single (l : OneLine) (name : Name) (e : Entry) :
    readLine [] (l.indent.bytes ++ (l.body name e ++ l.ending.bytes)) = held name e l.residue := by
  have hblank : Blanks [] := fun b hb => by cases hb
  have hno : ∀ b ∈ ([34, 35] : Bytes), b ∉ l.body name e := by
    intro b hb
    obtain ⟨hinner, hopen, hclose⟩ := inner_of_mark hb
    have hspecial := (special_of_inner hinner).1
    simp only [OneLine.body, List.mem_append, List.mem_cons, not_or]
    exact ⟨name.plain.not_mem hspecial, ⟨l.gap.blanks.not_mem hspecial, hopen,
      l.pad.blanks.not_mem hspecial, inner_not_mem l e hinner⟩, hclose, List.not_mem_nil⟩
  have hlast : (l.body name e).getLast? ≠ some 59 := by
    rw [OneLine.body, ← List.append_assoc, List.getLast?_concat]
    decide
  obtain ⟨hne, hline⟩ := line_of_body (body_core l name e) (hno 34 (by decide)) (hno 35 (by decide))
    hlast l.indent.blanks l.ending.gap.blanks l.ending.pad.blanks l.ending.semi l.ending.comment
  have hopen : 123 ∈ l.body name e := by simp [OneLine.body]
  have hbrace : l.body name e ≠ [125] := by
    intro h
    rw [h] at hopen
    exact absurd hopen (by decide)
  have hbody : l.body name e =
      (name.bytes ++ l.gap.bytes) ++ 123 :: (l.pad.bytes ++ (l.inner e ++ [125])) := by
    simp only [OneLine.body, List.append_assoc, List.cons_append]
  -- The first brace is the one behind the name.
  obtain ⟨htake, hdrop⟩ := takeWhile_brace (head_not_mem name l.gap (b := 123) (by decide))
    (l.pad.bytes ++ (l.inner e ++ [125]))
  rw [← hbody] at htake hdrop
  have hname := trim_core name.core hblank l.gap.blanks
  have hrest := trim_core (inner_core l e) l.pad.blanks hblank
  rw [List.nil_append] at hname
  rw [List.append_nil] at hrest
  have hsuffix : trimSuffix (l.inner e ++ [125]) 125 = l.inner e := by
    rw [trimSuffix, if_pos List.getLast?_concat, List.dropLast_concat]
  obtain ⟨hinner, hsplit⟩ := inner_joined l e
  rw [Ending.bytes]
  simp only [readLine]
  rw [if_neg hne, hline, if_neg hbrace, if_pos hopen, htake, hname, hdrop, hrest, if_neg name.ne,
    if_neg (by simp), hsuffix, if_neg hinner, hsplit, held]
  by_cases hmem : name.bytes ∈ blocks
  · rw [if_neg (not_not_intro hmem), if_pos List.getLast?_concat, if_pos hmem]
  · rw [if_pos hmem, if_neg hmem]

/-! ### What a file says -/

/-- A setting as a block on one line or a line of its own gives it. -/
def Form.setting (name : Name) (residue : Bytes) (e : Entry) : Setting :=
  ⟨name.bytes, e.key.bytes, tailed e.value.bytes residue⟩

def Form.settings (f : Form) (b : Block) : List Setting :=
  List.zipWith (Form.setting b.name) f.residues b.entries

/-- The settings of a document, each with what a layout leaves behind its value. -/
def Layout.settings (l : Layout) (doc : Document) : List Setting :=
  (List.zipWith Form.settings l.forms doc).flatten

theorem tailed_nil (v : Value) : tailed v.bytes [] = v.bytes := by
  rw [tailed, List.append_nil, v.trimmed]

/-- What further lines say behind some settings. -/
def behind (ss : List Setting) (r : List Setting × Bytes) : List Setting × Bytes := (ss ++ r.1, r.2)

theorem behind_nil : behind [] = id := rfl

theorem behind_append (ss ts : List Setting) : behind (ss ++ ts) = behind ss ∘ behind ts := by
  funext r
  simp [behind]

theorem readLines_fillers (block : Bytes) (fs : List Filler) (rest : List Bytes) :
    readLines block (fs.map Filler.bytes ++ rest) = readLines block rest := by
  induction fs with
  | nil => rfl
  | cons f fs ih =>
    rw [List.map_cons, List.cons_append, readLines, readLine_filler]
    simp [ih]

theorem readLines_entries {block : Name} {ls : List Line} {es : List Entry}
    (hlen : ls.length = es.length) (rest : List Bytes) :
    readLines block.bytes ((List.zipWith Line.render ls es).flatten ++ rest) =
      (readLines block.bytes rest).map
        (behind (List.zipWith (Form.setting block) (ls.map fun _ => []) es)) := by
  induction ls generalizing es with
  | nil => simp [behind_nil]
  | cons l ls ih =>
    cases es with
    | nil => cases hlen
    | cons e es =>
      rw [List.zipWith_cons_cons, List.flatten_cons, Line.render, List.append_assoc,
        List.append_assoc, readLines_fillers, List.singleton_append, readLines,
        readLine_entry block.ne, List.map_cons, List.zipWith_cons_cons]
      simp only [ih (Nat.succ.inj hlen), Option.map_map]
      congr 1
      funext r
      simp [behind, Form.setting, tailed_nil]

theorem readLines_oneLine (l : OneLine) (name : Name) (e : Entry) (rest : List Bytes) :
    readLines [] (l.render name e ++ rest) =
      if name.bytes ∈ blocks then
        (readLines [] rest).map (behind [Form.setting name l.residue e])
      else none := by
  have hline : l.render name e =
      l.above.map Filler.bytes ++ [l.indent.bytes ++ (l.body name e ++ l.ending.bytes)] := by
    simp only [OneLine.render, OneLine.body, OneLine.inner, List.append_assoc, List.cons_append,
      List.nil_append]
  rw [hline, List.append_assoc, readLines_fillers, List.singleton_append, readLines,
    readLine_single, held]
  split_ifs
  · rfl
  · rfl

theorem readLines_several (l : Several) (b : Block) (hlen : l.lines.length = b.entries.length)
    (rest : List Bytes) :
    readLines [] (l.render b ++ rest) =
      if b.name.bytes ∈ blocks then
        (readLines [] rest).map (behind (Form.settings (.several l) b))
      else none := by
  rw [Several.render, List.append_assoc, readLines_fillers, List.cons_append, readLines,
    readLine_open, opened]
  split_ifs
  · simp only [List.append_assoc]
    rw [readLines_entries hlen, readLines_fillers, List.singleton_append, readLines,
      readLine_close b.name.ne]
    dsimp only
    cases readLines [] rest <;> rfl
  · rfl

/-- What a block says in every form. -/
theorem readLines_form (f : Form) (b : Block) (hsize : f.size = b.entries.length)
    (rest : List Bytes) :
    readLines [] (f.render b ++ rest) =
      if b.name.bytes ∈ blocks then (readLines [] rest).map (behind (f.settings b)) else none := by
  cases f with
  | oneLine l =>
    obtain ⟨e, he⟩ := List.length_eq_one_iff.1 hsize.symm
    rw [Form.render, he, List.flatMap_singleton, readLines_oneLine, Form.settings, he]
    rfl
  | several l => exact readLines_several l b hsize rest

/-- The blocks of the document are known. -/
def Document.Known (doc : Document) : Prop := ∀ b ∈ doc, b.name.bytes ∈ blocks

instance (doc : Document) : Decidable doc.Known := inferInstanceAs (Decidable (∀ b ∈ doc, _))

/-- What the lines of a document say in every layout. -/
theorem readLines_forms {fs : List Form} {doc : Document}
    (hfits : fs.map Form.size = doc.map fun b => b.entries.length) (rest : List Bytes) :
    readLines [] ((List.zipWith Form.render fs doc).flatten ++ rest) =
      if Document.Known doc then
        (readLines [] rest).map (behind (List.zipWith Form.settings fs doc).flatten)
      else none := by
  induction doc generalizing fs with
  | nil =>
    rw [List.map_nil, List.map_eq_nil_iff] at hfits
    subst hfits
    have hall : Document.Known [] := fun b hb => by cases hb
    rw [if_pos hall]
    simp [behind_nil]
  | cons b doc ih =>
    cases fs with
    | nil => cases hfits
    | cons f fs =>
      obtain ⟨hsize, hrest⟩ := List.cons.inj hfits
      rw [List.zipWith_cons_cons, List.flatten_cons, List.append_assoc, readLines_form f b hsize,
        ih hrest, List.zipWith_cons_cons, List.flatten_cons, behind_append]
      by_cases hb : b.name.bytes ∈ blocks
      · by_cases hdoc : Document.Known doc
        · have hall : Document.Known (b :: doc) := List.forall_mem_cons.2 ⟨hb, hdoc⟩
          rw [if_pos hb, if_pos hdoc, if_pos hall, Option.map_map]
        · have hall : ¬Document.Known (b :: doc) := fun h => hdoc (List.forall_mem_cons.1 h).2
          rw [if_pos hb, if_neg hdoc, if_neg hall, Option.map_none]
      · have hall : ¬Document.Known (b :: doc) := fun h => hb (List.forall_mem_cons.1 h).1
        rw [if_neg hb, if_neg hall]

/-! ### Line breaks -/

theorem comment_unbroken (c : Option Comment) : 10 ∉ commentBytes c := by
  cases c with
  | none => exact List.not_mem_nil
  | some c =>
    rw [commentBytes, List.mem_cons, not_or]
    exact ⟨by decide, c.oneLine⟩

theorem Gap.unbroken (g : Gap) : 10 ∉ g.bytes := g.blanks.not_mem (by decide)

theorem Value.unbroken (v : Value) : 10 ∉ v.bytes := v.plain.not_mem (by decide)

theorem Ending.unbroken (e : Ending) : 10 ∉ e.bytes := by
  have hsemi : 10 ∉ semicolon e.semi := by cases e.semi <;> simp [semicolon]
  simp only [Ending.bytes, List.mem_append, not_or]
  exact ⟨e.gap.unbroken, hsemi, e.pad.unbroken, comment_unbroken e.comment⟩

theorem fillers_unbroken (fs : List Filler) : ∀ s ∈ fs.map Filler.bytes, 10 ∉ s := by
  intro s hs
  obtain ⟨f, -, rfl⟩ := List.mem_map.1 hs
  rw [Filler.bytes, List.mem_append, not_or]
  exact ⟨f.pad.unbroken, comment_unbroken f.comment⟩

theorem Line.unbroken (l : Line) (e : Entry) : ∀ s ∈ l.render e, 10 ∉ s := by
  intro s hs
  rcases List.mem_append.1 hs with hs | hs
  · exact fillers_unbroken l.above s hs
  · rw [List.mem_singleton.1 hs]
    simp only [List.mem_append, not_or]
    exact ⟨l.indent.unbroken, e.key.unbroken, l.sep.unbroken, e.value.unbroken, l.ending.unbroken⟩

theorem OneLine.unbroken (l : OneLine) (name : Name) (e : Entry) :
    ∀ s ∈ l.render name e, 10 ∉ s := by
  have hbreak : (10 : UInt8) ≠ 123 ∧ (10 : UInt8) ≠ 125 := by decide
  intro s hs
  rcases List.mem_append.1 hs with hs | hs
  · exact fillers_unbroken l.above s hs
  · rw [List.mem_singleton.1 hs]
    simp only [List.mem_append, List.mem_cons, not_or]
    exact ⟨l.indent.unbroken, name.unbroken, l.gap.unbroken, hbreak.1, l.pad.unbroken,
      e.key.unbroken, l.sep.unbroken, e.value.unbroken, residue_not_mem l (by decide),
      l.back.unbroken, hbreak.2, l.ending.unbroken⟩

theorem exists_of_mem_zipWith {α β γ : Type} {f : α → β → γ} {xs : List α} {ys : List β} {z : γ}
    (h : z ∈ List.zipWith f xs ys) : ∃ x y, z = f x y := by
  rw [← List.map_uncurry_zip_eq_zipWith] at h
  obtain ⟨p, -, rfl⟩ := List.mem_map.1 h
  exact ⟨p.1, p.2, rfl⟩

theorem Several.unbroken (l : Several) (b : Block) : ∀ s ∈ l.render b, 10 ∉ s := by
  have hbreak : (10 : UInt8) ≠ 123 ∧ (10 : UInt8) ≠ 125 := by decide
  have hopen : 10 ∉ l.openLine b.name := by
    simp only [Several.openLine, List.mem_append, List.mem_cons, not_or]
    exact ⟨l.indent.unbroken, b.name.unbroken, l.gap.unbroken, hbreak.1, l.pad.unbroken,
      comment_unbroken l.comment⟩
  have hclose : 10 ∉ l.closeLine := by
    simp only [Several.closeLine, List.mem_append, List.mem_cons, not_or]
    exact ⟨l.close.unbroken, hbreak.2, l.ending.unbroken⟩
  intro s hs
  rcases List.mem_append.1 hs with hs | hs
  · exact fillers_unbroken l.above s hs
  rcases List.mem_cons.1 hs with rfl | hs
  · exact hopen
  rcases List.mem_append.1 hs with hs | hs
  · obtain ⟨t, ht, hs⟩ := List.mem_flatten.1 hs
    obtain ⟨line, e, rfl⟩ := exists_of_mem_zipWith ht
    exact line.unbroken e s hs
  rcases List.mem_append.1 hs with hs | hs
  · exact fillers_unbroken l.below s hs
  · rw [List.mem_singleton.1 hs]
    exact hclose

theorem Layout.unbroken (l : Layout) (doc : Document) : ∀ s ∈ l.lines doc, 10 ∉ s := by
  intro s hs
  rcases List.mem_append.1 hs with hs | hs
  · obtain ⟨t, ht, hs⟩ := List.mem_flatten.1 hs
    obtain ⟨f, b, rfl⟩ := exists_of_mem_zipWith ht
    cases f with
    | oneLine o =>
      obtain ⟨e, -, hs⟩ := List.mem_flatMap.1 hs
      exact o.unbroken b.name e s hs
    | several o => exact o.unbroken b s hs
  · exact fillers_unbroken l.below s hs

/-- **What a file says in every layout.** -/
theorem readText_layout {l : Layout} {doc : Document} (hfits : l.Fits doc) :
    readText (l.text doc) = if Document.Known doc then some (l.settings doc) else none := by
  have hlines : readLines [] ((l.text doc).splitOn 10) = readLines [] (l.lines doc) := by
    rw [Layout.text]
    by_cases hne : l.lines doc = []
    · rw [hne]
      decide +kernel
    · rw [List.splitOn_intercalate _ (l.unbroken doc) hne]
  have hforms := readLines_forms hfits (l.below.map Filler.bytes)
  have hbelow := readLines_fillers [] l.below []
  rw [List.append_nil] at hbelow
  rw [hbelow] at hforms
  rw [readText, hlines, Layout.lines, hforms]
  split_ifs
  · simp [readLines, behind, Layout.settings]
  · rfl

/-! ### What is left of a `;` -/

/-- The settings of a document, each with the name of its block. -/
def Document.flat (doc : Document) : List (Name × Entry) :=
  doc.flatMap fun b => b.entries.map fun e => (b.name, e)

theorem Form.length_residues (f : Form) : f.residues.length = f.size := by
  cases f with
  | oneLine l => rfl
  | several l => exact List.length_map _

theorem Layout.length_residues (l : Layout) : l.residues.length = l.shape.sum := by
  rw [Layout.residues, List.length_flatMap, Layout.shape]
  exact congrArg List.sum (List.map_congr_left fun f _ => f.length_residues)

theorem Form.settings_eq (f : Form) (b : Block) : f.settings b =
    List.zipWith (fun r x => Form.setting x.1 r x.2) f.residues
      (b.entries.map fun e => (b.name, e)) := by
  rw [Form.settings, List.zipWith_map_right]

theorem forms_settings_eq {fs : List Form} {doc : Document}
    (hfits : fs.map Form.size = doc.map fun b => b.entries.length) :
    (List.zipWith Form.settings fs doc).flatten =
      List.zipWith (fun r x => Form.setting x.1 r x.2) (fs.flatMap Form.residues)
        (Document.flat doc) := by
  induction doc generalizing fs with
  | nil =>
    rw [List.map_nil, List.map_eq_nil_iff] at hfits
    subst hfits
    rfl
  | cons b doc ih =>
    cases fs with
    | nil => cases hfits
    | cons f fs =>
      obtain ⟨hsize, hrest⟩ := List.cons.inj hfits
      have hlen : f.residues.length = (b.entries.map fun e => (b.name, e)).length := by
        rw [f.length_residues, List.length_map]
        exact hsize
      have hflat : Document.flat (b :: doc) =
          (b.entries.map fun e => (b.name, e)) ++ Document.flat doc := List.flatMap_cons
      rw [List.zipWith_cons_cons, List.flatten_cons, ih hrest, f.settings_eq, List.flatMap_cons,
        hflat, List.zipWith_append hlen]

theorem Layout.settings_eq {l : Layout} {doc : Document} (hfits : l.Fits doc) :
    l.settings doc = List.zipWith (fun r x => Form.setting x.1 r x.2) l.residues doc.flat :=
  forms_settings_eq hfits

/-- Every residue is nothing, or blanks and a `;`. -/
theorem residue_cases {l : Layout} {r : Bytes} (h : r ∈ l.residues) :
    r = [] ∨ ∃ o : OneLine, r = o.residue := by
  obtain ⟨f, -, hr⟩ := List.mem_flatMap.1 h
  cases f with
  | oneLine o => exact .inr ⟨o, List.mem_singleton.1 hr⟩
  | several o =>
    obtain ⟨-, -, rfl⟩ := List.mem_map.1 hr
    exact .inl rfl

/-- The residue stays behind a value that is not empty. -/
theorem tailed_eq (v : Value) (hv : v.bytes ≠ []) {l : Layout} {r : Bytes} (h : r ∈ l.residues) :
    tailed v.bytes r = v.bytes ++ r := by
  rcases residue_cases h with rfl | ⟨o, rfl⟩
  · rw [tailed_nil, List.append_nil]
  · have hblank : Blanks [] := fun b hb => by cases hb
    rw [OneLine.residue, tailed]
    cases o.stop with
    | none => rw [List.append_nil, v.trimmed]
    | some g =>
      have htrim := trim_core (core_cap (v.core hv) g.blanks (c := 59) (by decide)) hblank hblank
      rwa [List.nil_append, List.append_nil] at htrim

/-! ### Telling two layouts apart -/

def nodeName : Name := ⟨⟨ascii "node", by unfold Plain; decide +kernel, by decide +kernel⟩, by decide⟩

def idKey : Key :=
  ⟨⟨⟨ascii "id", by unfold Plain; decide +kernel, by decide +kernel⟩, by decide⟩, by decide +kernel⟩

def keyKey : Key :=
  ⟨⟨⟨ascii "key", by unfold Plain; decide +kernel, by decide +kernel⟩, by decide⟩, by decide +kernel⟩

def valueX : Value := ⟨ascii "x", by unfold Plain; decide +kernel, by decide +kernel⟩

/-- The identity of the node, or its key. -/
def probe (id : Bool) : Entry := ⟨if id then idKey else keyKey, valueX⟩

/-- A document of the shape with the settings in one block after the other. -/
def probes : List ℕ → List Bool → Document
  | [], _ => []
  | n :: ns, ids => ⟨nodeName, (ids.take n).map probe⟩ :: probes ns (ids.drop n)

theorem probes_known (ns : List ℕ) (ids : List Bool) : Document.Known (probes ns ids) := by
  induction ns generalizing ids with
  | nil => exact fun b hb => by cases hb
  | cons n ns ih =>
    have hnode : nodeName.bytes ∈ blocks := List.mem_cons_self
    exact List.forall_mem_cons.2 ⟨hnode, ih (ids.drop n)⟩

theorem probes_fits {l : Layout} {ids : List Bool} (h : ids.length = l.shape.sum) :
    l.Fits (probes l.shape ids) := by
  rw [Layout.Fits]
  generalize l.shape = ns at h ⊢
  induction ns generalizing ids with
  | nil => rfl
  | cons n ns ih =>
    rw [List.sum_cons] at h
    have hdrop : (ids.drop n).length = ns.sum := by
      rw [List.length_drop]
      omega
    rw [probes, List.map_cons, ← ih hdrop, List.length_map, List.length_take]
    congr 1
    omega

theorem probes_flat (ns : List ℕ) {ids : List Bool} (h : ids.length = ns.sum) :
    (probes ns ids).flat = ids.map fun id => (nodeName, probe id) := by
  induction ns generalizing ids with
  | nil =>
    rw [List.sum_nil, List.length_eq_zero_iff] at h
    rw [h]
    rfl
  | cons n ns ih =>
    rw [List.sum_cons] at h
    have hdrop : (ids.drop n).length = ns.sum := by
      rw [List.length_drop]
      omega
    have hflat : (probes (n :: ns) ids).flat =
        (((ids.take n).map probe).map fun e => (nodeName, e)) ++ (probes ns (ids.drop n)).flat :=
      List.flatMap_cons
    rw [hflat, ih hdrop, List.map_map]
    conv_rhs => rw [← List.take_append_drop n ids, List.map_append]
    rfl

/-- The settings of a document of probes. -/
def probed (rs : List Bytes) (ids : List Bool) : List Setting :=
  List.zipWith (fun r id => Form.setting nodeName r (probe id)) rs ids

/-- The residue stays behind the value of a probe. -/
def Stays (r : Bytes) : Prop := tailed valueX.bytes r = valueX.bytes ++ r

theorem applyAll_probe (std : Std) (c : Config) {r : Bytes} (hr : Stays r) (rs : List Bytes)
    (id : Bool) (ids : List Bool) :
    applyAll std c (probed (r :: rs) (id :: ids)) =
      applyAll std (if id then { c with nodeID := valueX.bytes ++ r }
        else { c with nodeKey := valueX.bytes ++ r }) (probed rs ids) := by
  have hvalue : valueX.bytes ++ r ≠ [] := List.append_ne_nil_of_left_ne_nil (by decide) r
  have hkey : ascii "key" ≠ ascii "id" := by decide
  have hnode : nodeName.bytes = ascii "node" := rfl
  have hstays : tailed (probe id).value.bytes r = valueX.bytes ++ r := hr
  rw [probed, List.zipWith_cons_cons, applyAll, Form.setting]
  simp only
  rw [hstays, apply, if_neg hvalue, if_pos hnode]
  cases id with
  | true =>
    have hid : (probe true).key.bytes = ascii "id" := rfl
    rw [hid, applyNode, if_pos rfl]
    rfl
  | false =>
    have hid : (probe false).key.bytes = ascii "key" := rfl
    rw [hid, applyNode, if_neg hkey, if_pos rfl]
    rfl

theorem applyAll_keys (std : Std) (c : Config) {rs : List Bytes} (hrs : ∀ r ∈ rs, Stays r) :
    ∃ d, applyAll std c (probed rs (List.replicate rs.length false)) = some d ∧
      d.nodeID = c.nodeID := by
  induction rs generalizing c with
  | nil => exact ⟨c, rfl, rfl⟩
  | cons r rs ih =>
    obtain ⟨hr, hrs⟩ := List.forall_mem_cons.1 hrs
    obtain ⟨d, hd, hid⟩ := ih { c with nodeKey := valueX.bytes ++ r } hrs
    refine ⟨d, ?_, hid⟩
    rw [List.length_cons, List.replicate_succ, applyAll_probe std c hr]
    exact hd

/-- Where two lists of residues differ, a document has the identity of the node there. -/
theorem probes_apart (std : Std) {rs rs' : List Bytes} (hlen : rs.length = rs'.length)
    (hne : rs ≠ rs') (hrs : ∀ r ∈ rs, Stays r) (hrs' : ∀ r ∈ rs', Stays r) :
    ∃ ids : List Bool, ids.length = rs.length ∧ ∀ c c', ∃ d d',
      applyAll std c (probed rs ids) = some d ∧ applyAll std c' (probed rs' ids) = some d' ∧
        d.nodeID ≠ d'.nodeID := by
  induction rs generalizing rs' with
  | nil =>
    rw [List.length_nil, eq_comm, List.length_eq_zero_iff] at hlen
    exact absurd hlen.symm hne
  | cons r rs ih =>
    cases rs' with
    | nil => cases hlen
    | cons r' rs' =>
      have htail : rs.length = rs'.length := Nat.succ.inj hlen
      obtain ⟨hr, hrs⟩ := List.forall_mem_cons.1 hrs
      obtain ⟨hr', hrs'⟩ := List.forall_mem_cons.1 hrs'
      by_cases hrest : rs = rs'
      · have hhead : r ≠ r' := fun h => hne (by rw [h, hrest])
        refine ⟨true :: List.replicate rs.length false, by simp, fun c c' => ?_⟩
        obtain ⟨d, hd, hid⟩ := applyAll_keys std { c with nodeID := valueX.bytes ++ r } hrs
        obtain ⟨d', hd', hid'⟩ := applyAll_keys std { c' with nodeID := valueX.bytes ++ r' } hrs'
        refine ⟨d, d', (applyAll_probe std c hr _ _ _).trans hd, ?_, ?_⟩
        · rw [applyAll_probe std c' hr', htail]
          exact hd'
        · rw [hid, hid']
          exact fun h => hhead (List.append_cancel_left h)
      · obtain ⟨ids, hids, hall⟩ := ih htail hrest hrs hrs'
        refine ⟨false :: ids, by rw [List.length_cons, hids, List.length_cons], fun c c' => ?_⟩
        rw [applyAll_probe std c hr, applyAll_probe std c' hr']
        exact hall _ _

theorem Layout.Fits.of_shape {l l' : Layout} {doc : Document} (h : l.Fits doc)
    (hshape : l.shape = l'.shape) : l'.Fits doc := by
  rw [Layout.Fits, ← hshape]
  exact h

theorem probed_settings {l : Layout} {ids : List Bool} (h : ids.length = l.shape.sum) :
    l.settings (probes l.shape ids) = probed l.residues ids := by
  rw [Layout.settings_eq (probes_fits h), probes_flat l.shape h, List.zipWith_map_right]
  rfl

/-- **Two layouts say the same of all documents just when the same is left of their `;`.** -/
theorem layout_iff (std : Std) {l l' : Layout} (hshape : l.shape = l'.shape) :
    (∀ c path doc, l.Fits doc →
      (parse std c (l.text doc) path).toOption = (parse std c (l'.text doc) path).toOption) ↔
      l.residues = l'.residues := by
  have hread : ∀ c path doc, l.Fits doc →
      (parse std c (l.text doc) path).toOption =
        (if Document.Known doc then some (l.settings doc) else none).bind (applyAll std c) ∧
      (parse std c (l'.text doc) path).toOption =
        (if Document.Known doc then some (l'.settings doc) else none).bind (applyAll std c) := by
    intro c path doc hfits
    have hfits' := hfits.of_shape hshape
    rw [parse_eq, parse_eq, readText_layout hfits, readText_layout hfits']
    exact ⟨rfl, rfl⟩
  constructor
  · intro hall
    by_contra hne
    have hlen : l.residues.length = l'.residues.length := by
      rw [l.length_residues, l'.length_residues, hshape]
    have hstays : ∀ {k : Layout}, ∀ r ∈ k.residues, Stays r :=
      fun r hr => tailed_eq valueX (by decide) hr
    -- A document with an identifier in each place tells the layouts apart by the last one read.
    obtain ⟨ids, hids, hapart⟩ := probes_apart std hlen hne hstays hstays
    have hsum : ids.length = l.shape.sum := hids.trans l.length_residues
    have hfits := probes_fits hsum
    have hknown := probes_known l.shape ids
    obtain ⟨h, h'⟩ := hread defaults [] _ hfits
    obtain ⟨d, d', hd, hd', hid⟩ := hapart defaults defaults
    have hsettings : l'.settings (probes l.shape ids) = probed l'.residues ids := by
      rw [hshape] at hsum ⊢
      exact probed_settings hsum
    rw [if_pos hknown, Option.bind_some, probed_settings hsum, hd] at h
    rw [if_pos hknown, Option.bind_some, hsettings, hd'] at h'
    have heq := hall defaults [] _ hfits
    rw [h, h'] at heq
    exact hid (congrArg Config.nodeID (Option.some.inj heq))
  · intro heq c path doc hfits
    have hfits' := hfits.of_shape hshape
    obtain ⟨h, h'⟩ := hread c path doc hfits
    rw [h, h', Layout.settings_eq hfits, Layout.settings_eq hfits', heq]

def sampleStd : Std where
  parseDuration s := if s = ascii "4s" then some (4 * 10 ^ 9) else none
  urlParse _ := none

def noGap : Gap := ⟨[], fun b hb => by cases hb⟩

def oneGap : Gap := ⟨[32], by unfold Blanks; decide +kernel⟩

def oneSep : Separator := ⟨oneGap, by decide⟩

def plainEnd (semi : Bool) : Ending := ⟨noGap, semi, noGap, none⟩

def sample : Document := [⟨nodeName, [⟨idKey, valueX⟩]⟩]

/-- `node { id x; }` -/
def oneLineSample : Layout :=
  ⟨[.oneLine ⟨[], noGap, oneGap, oneGap, oneSep, some noGap, oneGap, plainEnd false⟩], []⟩

/-- The block over three lines, with `id x;` between the braces. -/
def severalSample : Layout :=
  ⟨[.several ⟨[], noGap, oneGap, noGap, none, [⟨[], noGap, oneSep, plainEnd true⟩], [], noGap,
    plainEnd false⟩], []⟩

/-- A result that is there. -/
theorem ok_of_map {α : Type} {r : Except Refusal Config} {f : Config → α} {x : α}
    (h : r.toOption.map f = some x) : ∃ c, r = .ok c ∧ f c = x := by
  cases r with
  | error e => cases h
  | ok c => exact ⟨c, rfl, Option.some.inj h⟩

end AgentConf
