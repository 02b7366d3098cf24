import CompactStore.Proofs.Config.Reached

/-!
# A configuration is read from its own text

A text spells a configuration when each parameter has a line with its name, in any case,
and the text of its value in quotes; the lines stand in any order, and idle lines, which
are blank or a comment, stand between them.  What is read between the quotes is the text
itself: blanks are taken off outside the quotes only, one pair of quotes is taken off, and
what else is a quote, a blank or a hash belongs to the value.  So such a line sets its
parameter to what it is, whatever the other lines set, and a text that has a line for each
parameter is read as the configuration that it spells: `Reached.parse_eq`.

Only a line feed cannot be written between quotes, and only the name of the log file can
have one: `lineFeed_not_mem_get`.
-/

namespace CompactStore

namespace Decimal

/-- The text of a decimal has digits in it and a point. -/
theorem Scaled.isDigit_of_mem_text {s : Scaled} {ch : Char} (h : ch ∈ s.text) :
    ch.isDigit ∨ ch = '.' := by
  have hdigits : ∀ ch ∈ Nat.toDigits 10 s.digits, ch.isDigit ∨ ch = '.' :=
    fun ch hch => .inl (isDigit_of_mem_toDigits hch)
  have hzeros : ∀ n, ∀ ch ∈ List.replicate n '0', ch.isDigit ∨ ch = '.' := by
    intro n ch hch
    obtain rfl := List.eq_of_mem_replicate hch
    exact .inl (by decide)
  unfold Scaled.text at h
  dsimp only at h
  split at h
  · rcases List.mem_append.mp h with hwhole | hzero
    · exact hdigits ch hwhole
    · exact hzeros _ ch hzero
  · split at h
    · rcases List.mem_append.mp h with hwhole | hrest
      · exact hdigits ch (List.mem_of_mem_take hwhole)
      · rcases List.mem_cons.mp hrest with rfl | hplaces
        · exact .inr rfl
        · exact hdigits ch (List.mem_of_mem_drop hplaces)
    · rcases List.mem_cons.mp h with rfl | hrest
      · exact .inl (by decide)
      · rcases List.mem_cons.mp hrest with rfl | hplaces
        · exact .inr rfl
        · rcases List.mem_append.mp hplaces with hzero | hdigit
          · exact hzeros _ ch hzero
          · exact hdigits ch hdigit

/-- The text of a float is on one line. -/
theorem lineFeed_not_mem_floatText (x : Float) : '\n' ∉ floatText x := by
  have hscaled : ∀ s : Scaled, '\n' ∉ s.text := by
    intro s hmem
    obtain hdigit | hpoint := Scaled.isDigit_of_mem_text hmem
    · exact absurd hdigit (by decide)
    · exact absurd hpoint (by decide)
  unfold floatText
  dsimp only
  split
  · decide
  · have hmagnitude : '\n' ∉ (if x.toBits.toNat % 2 ^ 63 = 0 then ['0']
        else if x.isInf then "inf".toList
        else (Rounding.ofBits x.toBits.toNat).shortest.text) := by
      split
      · decide
      · split
        · decide
        · exact hscaled _
    split
    · exact List.not_mem_cons_of_ne_of_not_mem (by decide) hmagnitude
    · exact hmagnitude

end Decimal

namespace Config

/-! ### Blanks and quotes -/

/-- No blank is a letter. -/
theorem toLower_of_isBlank {ch : Char} (h : isBlank ch) : ch.toLower = ch := by
  have hletter : ¬ (65 ≤ ch.toNat ∧ ch.toNat ≤ 90) := by
    intro hrange
    have hnone : isBlank ch = false := by
      simp only [isBlank, Bool.or_eq_false_iff, Bool.and_eq_false_iff, decide_eq_false_iff_not,
        beq_eq_false_iff_ne]
      omega
    rw [hnone] at h
    cases h
  unfold Char.toLower
  rw [dif_neg]
  rintro ⟨hlow, hhigh⟩
  exact hletter ⟨UInt32.le_iff_toNat_le.mp hlow, UInt32.le_iff_toNat_le.mp hhigh⟩

/-- Blanks in front are dropped up to the first character that is none. -/
theorem dropWhile_pad {blanks rest : List Char} {x : Char} (hblanks : ∀ ch ∈ blanks, isBlank ch)
    (hx : isBlank x = false) : (blanks ++ x :: rest).dropWhile isBlank = x :: rest := by
  rw [List.dropWhile_append_of_pos hblanks, List.dropWhile_cons_of_neg (by simp [hx])]

/-- **Blanks around a text** are taken off, and no others. -/
theorem trim_pad {before core after : List Char} {x y : Char}
    (hbefore : ∀ ch ∈ before, isBlank ch) (hafter : ∀ ch ∈ after, isBlank ch)
    (hfirst : core.head? = some x) (hx : isBlank x = false)
    (hlast : core.getLast? = some y) (hy : isBlank y = false) :
    trim (before ++ core ++ after) = core := by
  have hfront : (before ++ core ++ after).dropWhile isBlank = core ++ after := by
    obtain ⟨rest, rfl⟩ := List.head?_eq_some_iff.mp hfirst
    rw [List.append_assoc, List.cons_append, dropWhile_pad hbefore hx]
  have hback : (core ++ after).reverse.dropWhile isBlank = core.reverse := by
    obtain ⟨rest, rfl⟩ := List.getLast?_eq_some_iff.mp hlast
    have hblanks : ∀ ch ∈ after.reverse, isBlank ch := by simpa using hafter
    rw [List.reverse_append, List.reverse_append, List.reverse_singleton, List.singleton_append,
      dropWhile_pad hblanks hy]
  rw [trim, hfront, hback, List.reverse_reverse]

/-- The first character that is no blank stays first. -/
theorem head?_trim {before rest : List Char} {x : Char} (hbefore : ∀ ch ∈ before, isBlank ch)
    (hx : isBlank x = false) : (trim (before ++ x :: rest)).head? = some x := by
  have hlast : ((x :: rest).reverse.dropWhile isBlank).getLast? = some x := by
    rw [List.reverse_cons, List.dropWhile_append]
    split
    · simp [hx]
    · exact List.getLast?_concat
  rw [trim, dropWhile_pad hbefore hx, List.head?_reverse, hlast]

/-- A word ends at the first blank. -/
theorem span_word {word rest : List Char} {blank : Char} (hword : ∀ ch ∈ word, isBlank ch = false)
    (hblank : isBlank blank) :
    (word ++ blank :: rest).takeWhile (fun ch => !isBlank ch) = word ∧
      (word ++ blank :: rest).dropWhile (fun ch => !isBlank ch) = blank :: rest := by
  have hall : ∀ ch ∈ word, (!isBlank ch) = true := by
    intro ch hch
    rw [hword ch hch, Bool.not_false]
  constructor
  · rw [List.takeWhile_append_of_pos hall]
    simp [hblank]
  · rw [List.dropWhile_append_of_pos hall]
    simp [hblank]

/-- Nothing is left of blanks. -/
theorem trim_blanks {line : List Char} (h : ∀ ch ∈ line, isBlank ch) : trim line = [] := by
  have hnone : line.dropWhile isBlank = [] := by
    rw [← List.append_nil line, List.dropWhile_append_of_pos h, List.dropWhile_nil]
  rw [trim, hnone]
  rfl

/-- A value in quotes. -/
def quoted (value : List Char) : List Char :=
  '"' :: value ++ ['"']

/-- A quote is not taken off as a blank. -/
theorem isBlank_quote : isBlank '"' = false := by decide

/-- What ends with a value in quotes ends with a quote. -/
theorem getLast?_append_quoted (front value : List Char) :
    (front ++ quoted value).getLast? = some '"' := by
  rw [quoted, ← List.append_assoc, List.getLast?_concat]

/-- **One pair of quotes** is taken off, whatever stands between them. -/
theorem unquote_quoted (value : List Char) : unquote (quoted value) = value := by
  rw [quoted, List.cons_append, unquote, List.getLast?_concat, if_pos rfl, List.dropLast_concat]

/-- No blanks are taken off inside the quotes. -/
theorem trim_quoted {blanks value : List Char} (hblanks : ∀ ch ∈ blanks, isBlank ch) :
    trim (blanks ++ quoted value) = quoted value := by
  have hpad : trim (blanks ++ quoted value ++ []) = quoted value :=
    trim_pad hblanks nofun rfl isBlank_quote (getLast?_append_quoted [] value) isBlank_quote
  rwa [List.append_nil] at hpad

/-! ### Lines -/

/-- A character in front of lines is a line feed, or goes to the first of them. -/
theorem consLine_eq (ch : Char) {rest : List (List Char)} (h : rest ≠ []) :
    consLine ch rest = if ch == '\n' then [] :: rest else rest.modifyHead (ch :: ·) := by
  obtain ⟨line, others, rfl⟩ := List.exists_cons_of_ne_nil h
  by_cases hch : ch = '\n' <;> simp [consLine, hch]

/-- The lines of a text are what stands between its line feeds. -/
theorem lines_eq_splitOn (text : List Char) : lines text = text.splitOn '\n' := by
  induction text with
  | nil => rfl
  | cons ch rest ih =>
      have hcons : lines (ch :: rest) = consLine ch (lines rest) := rfl
      rw [hcons, ih, consLine_eq ch (List.splitOn_ne_nil '\n' rest)]
      unfold List.splitOn
      rw [List.splitOnP_cons_eq_if_modifyHead]

/-- Blanks that stay on their line. -/
def IsGap (blanks : List Char) : Prop :=
  ∀ ch ∈ blanks, isBlank ch ∧ ch ≠ '\n'

theorem isGap_nil : IsGap [] :=
  fun _ hch => absurd hch List.not_mem_nil

/-- A line that says nothing: it is blank, or a comment. -/
inductive Idle : List Char → Prop
  | blank {blanks : List Char} : IsGap blanks → Idle blanks
  | comment {before rest : List Char} : IsGap before → '\n' ∉ rest → Idle (before ++ '#' :: rest)

/-- A line that sets a parameter to what it is: its name in any case, blanks, and the text
of its value in quotes, with blanks on either side. -/
inductive Sets (c : Config) (p : Parameter) : List Char → Prop
  | line {before name gap after : List Char} : IsGap before →
      name.map Char.toLower = p.name.toList → IsGap gap → gap ≠ [] → IsGap after →
      Sets c p (before ++ (name ++ (gap ++ quoted (p.get c).toList)) ++ after)

/-- Lines that set parameters in this order, with idle lines between them. -/
inductive Spells (c : Config) : List Parameter → List (List Char) → Prop
  | nil : Spells c [] []
  | idle {order : List Parameter} {line : List Char} {rest : List (List Char)} :
      Idle line → Spells c order rest → Spells c order (line :: rest)
  | sets {p : Parameter} {order : List Parameter} {line : List Char} {rest : List (List Char)} :
      Sets c p line → Spells c order rest → Spells c (p :: order) (line :: rest)

variable {c d : Config} {p : Parameter} {line : List Char} {order : List Parameter}
  {lines : List (List Char)}

/-- Idle lines are skipped. -/
theorem setting?_of_idle (h : Idle line) : setting? line = none := by
  unfold setting?
  dsimp only
  cases h with
  | blank hblanks => rw [trim_blanks fun ch hch => (hblanks ch hch).1]
  | @comment before rest hbefore hrest =>
      have hhead : (trim (before ++ '#' :: rest)).head? = some '#' :=
        head?_trim (fun ch hch => (hbefore ch hch).1) (by decide)
      obtain ⟨tail, htail⟩ := List.head?_eq_some_iff.mp hhead
      rw [htail]
      rfl

/-- Other lines set what stands behind the first blanks. -/
theorem setting?_eq_some (hne : trim line ≠ []) (hhash : (trim line).head? ≠ some '#') :
    setting? line = some {
      name := String.ofList ((trim line).takeWhile fun ch => !isBlank ch)
      value := String.ofList (unquote (trim ((trim line).dropWhile fun ch => !isBlank ch))) } := by
  unfold setting?
  dsimp only
  split
  · rename_i hnil
    exact absurd hnil hne
  · rename_i hcomment
    exact absurd (by rw [hcomment, List.head?_cons]) hhash
  · rfl

/-- The name of a parameter, in any case, has no blanks in it and begins no comment. -/
theorem plain_of_name {name : List Char} (h : name.map Char.toLower = p.name.toList) :
    (∀ ch ∈ name, isBlank ch = false) ∧ name ≠ [] ∧ '#' ∉ name := by
  have hchars : p.name.toList.all (fun ch => !isBlank ch && ch != '#') = true := by
    cases p <;> rfl
  have hplain : ∀ ch ∈ p.name.toList, isBlank ch = false ∧ ch ≠ '#' := by
    intro ch hch
    simpa using List.all_eq_true.mp hchars ch hch
  have hne : p.name.toList ≠ [] := by
    cases p <;> decide
  refine ⟨?_, ?_, ?_⟩
  · intro ch hch
    have hlower := hplain ch.toLower (h ▸ List.mem_map_of_mem hch)
    by_contra hblank
    rw [Bool.not_eq_false] at hblank
    rw [toLower_of_isBlank hblank, hblank] at hlower
    cases hlower.1
  · rintro rfl
    exact hne h.symm
  · intro hhash
    exact (hplain _ (h ▸ List.mem_map_of_mem hhash)).2 (by decide)

/-- **What a line sets**: the word that it begins with, and the text between the quotes. -/
theorem setting?_line {before name gap value after : List Char} (hbefore : IsGap before)
    (hplain : ∀ ch ∈ name, isBlank ch = false) (hname : name ≠ []) (hhash : '#' ∉ name)
    (hgap : IsGap gap) (hne : gap ≠ []) (hafter : IsGap after) :
    setting? (before ++ (name ++ (gap ++ quoted value)) ++ after) =
      some ⟨String.ofList name, String.ofList value⟩ := by
  obtain ⟨first, others, rfl⟩ := List.exists_cons_of_ne_nil hname
  obtain ⟨blank, blanks, rfl⟩ := List.exists_cons_of_ne_nil hne
  generalize hcore : first :: others ++ (blank :: blanks ++ quoted value) = core
  have hfirst : core.head? = some first := by rw [← hcore]; rfl
  have hlast : core.getLast? = some '"' := by
    rw [← hcore, ← List.append_assoc]
    exact getLast?_append_quoted _ value
  have htrim : trim (before ++ core ++ after) = core :=
    trim_pad (fun ch hch => (hbefore ch hch).1) (fun ch hch => (hafter ch hch).1)
      hfirst (hplain first List.mem_cons_self) hlast isBlank_quote
  have hspan : core.takeWhile (fun ch => !isBlank ch) = first :: others ∧
      core.dropWhile (fun ch => !isBlank ch) = blank :: blanks ++ quoted value :=
    hcore ▸ span_word hplain (hgap blank List.mem_cons_self).1
  rw [setting?_eq_some, htrim, hspan.1, hspan.2, trim_quoted fun ch hch => (hgap ch hch).1,
    unquote_quoted]
  · rw [htrim, ← hcore]
    exact List.cons_ne_nil _ _
  · rw [htrim, hfirst]
    intro hhead
    exact hhash (Option.some.inj hhead ▸ List.mem_cons_self)

/-- A line that sets a parameter puts its value. -/
theorem applyLine_of_sets (hc : c.Valid) (hback : ∀ p : Parameter, p.ReadsBack (p.content c))
    (h : Sets c p line) : d.applyLine line = .ok (p.put d (p.content c)) := by
  obtain @⟨before, name, gap, after, hbefore, hname, hgap, hne, hafter⟩ := h
  obtain ⟨hplain, hnonempty, hhash⟩ := plain_of_name hname
  have hfind : Parameter.find? (String.ofList name) = some p := by
    rw [Parameter.find?_eq_some_iff, String.toList_ofList, hname]
  unfold applyLine
  rw [setting?_line hbefore hplain hnonempty hhash hgap hne hafter, String.ofList_toList]
  dsimp only
  rw [p.get_eq, set_text hfind (hc p) (hback p)]

/-- **The lines one after another** put the values of their parameters. -/
theorem foldlM_of_spells (hc : c.Valid) (hback : ∀ p : Parameter, p.ReadsBack (p.content c))
    (h : Spells c order lines) :
    lines.foldlM applyLine d = .ok (order.foldl (fun d p => p.put d (p.content c)) d) := by
  induction h generalizing d with
  | nil => rfl
  | idle hidle _ ih =>
      rw [List.foldlM_cons, applyLine, setting?_of_idle hidle]
      exact ih
  | sets hsets _ ih =>
      rw [List.foldlM_cons, applyLine_of_sets hc hback hsets]
      exact ih

/-- The values that were put are those of the configuration. -/
theorem content_foldl_put (q : Parameter) (order : List Parameter) (d : Config) :
    q.content (order.foldl (fun d p => p.put d (p.content c)) d) =
      if q ∈ order then q.content c else q.content d := by
  induction order generalizing d with
  | nil => rfl
  | cons p rest ih =>
      rw [List.foldl_cons, ih]
      by_cases hrest : q ∈ rest
      · rw [if_pos hrest, if_pos (List.mem_cons_of_mem p hrest)]
      · rw [if_neg hrest]
        by_cases hq : q = p
        · subst hq
          rw [q.content_put_self, if_pos List.mem_cons_self]
        · rw [Parameter.content_put_of_ne hq, if_neg (by simp [hq, hrest])]

/-- Only the name of the log file can have a line feed in it. -/
theorem lineFeed_not_mem_get (hc : c.Valid) (hfile : '\n' ∉ c.logFile.toList) (p : Parameter) :
    '\n' ∉ (p.get c).toList := by
  have hsize : ∀ n : Nat, '\n' ∉ (Parameter.sizeText n).toList := by
    intro n hmem
    rw [Parameter.sizeText, String.toList_ofList] at hmem
    exact absurd (Decimal.isDigit_of_mem_toDigits hmem) (by decide)
  have hrate : ∀ x : Float, '\n' ∉ (Parameter.rateText x).toList := by
    intro x
    rw [Parameter.rateText, String.toList_ofList]
    exact Decimal.lineFeed_not_mem_floatText x
  have hlevel : '\n' ∉ c.logLevel.toList := by
    obtain ⟨level, hname⟩ : Parameter.IsLevelName c.logLevel := hc .logLevel
    rw [hname]
    cases level <;> decide
  cases p with
  | bloomCapacity => exact hsize _
  | bloomErrorRate => exact hrate _
  | cuckooCapacity => exact hsize _
  | cuckooErrorRate => exact hrate _
  | listNodeMax => exact hsize _
  | logLevel => exact hlevel
  | logFile => exact hfile

/-- Blanks between two words stay on their line. -/
theorem lineFeed_not_mem_gap {blanks : List Char} (h : IsGap blanks) : '\n' ∉ blanks :=
  fun hmem => (h _ hmem).2 rfl

/-- A line that is skipped is one line. -/
theorem lineFeed_not_mem_of_idle (h : Idle line) : '\n' ∉ line := by
  cases h with
  | blank hblanks => exact lineFeed_not_mem_gap hblanks
  | comment hbefore hrest => simp [lineFeed_not_mem_gap hbefore, hrest]

/-- A line that sets a parameter is one line. -/
theorem lineFeed_not_mem_of_sets (hc : c.Valid) (hfile : '\n' ∉ c.logFile.toList)
    (h : Sets c p line) : '\n' ∉ line := by
  obtain @⟨before, name, gap, after, hbefore, hname, hgap, -, hafter⟩ := h
  have hword : '\n' ∉ name := fun hmem => by
    have hblank := (plain_of_name hname).1 _ hmem
    exact absurd hblank (by decide)
  simp [quoted, lineFeed_not_mem_gap hbefore, hword, lineFeed_not_mem_gap hgap,
    lineFeed_not_mem_get hc hfile p, lineFeed_not_mem_gap hafter]

/-- **The lines that spell a configuration** have no line feeds in them. -/
theorem lineFeed_not_mem (hc : c.Valid) (hfile : '\n' ∉ c.logFile.toList)
    (h : Spells c order lines) : ∀ line ∈ lines, '\n' ∉ line := by
  induction h with
  | nil => exact nofun
  | idle hidle _ ih => exact List.forall_mem_cons.mpr ⟨lineFeed_not_mem_of_idle hidle, ih⟩
  | sets hsets _ ih => exact List.forall_mem_cons.mpr ⟨lineFeed_not_mem_of_sets hc hfile hsets, ih⟩

/-- **A configuration is read from its own text.**  Let a configuration come of reading a
text and of setting parameters, with rates that are read from their texts and no line feed
in the name of the log file.  A text in which each parameter has a line with its name in
any case and its value in quotes, in any order, with blank lines and comments anywhere, is
read as this configuration.  The last line may be empty, and a line may end with a carriage
return, so it does not matter how lines are ended. -/
theorem Reached.parse_eq (h : Reached c) (hback : ∀ p : Parameter, p.ReadsBack (p.content c))
    (hfile : '\n' ∉ c.logFile.toList) (hlines : Spells c order lines)
    (horder : ∀ p : Parameter, p ∈ order) {text : String}
    (htext : text.toList = ['\n'].intercalate lines) : parse text = .ok c := by
  have hne : lines ≠ [] := by
    rintro rfl
    cases hlines
    cases horder .logFile
  have hsplit : Config.lines text.toList = lines := by
    rw [lines_eq_splitOn, htext]
    exact List.splitOn_intercalate '\n' (lineFeed_not_mem h.valid hfile hlines) hne
  have hparse : parse text = .ok (order.foldl (fun d p => p.put d (p.content c)) {}) := by
    rw [parse, hsplit]
    exact foldlM_of_spells h.valid hback hlines
  rw [hparse]
  congr 1
  apply Parameter.ext_content
  intro q
  rw [content_foldl_put, if_pos (horder q)]

/-- The name of the log file begins with a blank and a quote, goes on like a comment, and
ends with a carriage return.  The names are in upper case, the last one first, after a
comment and an empty line. -/
theorem parse_eq_upper_reversed :
    let c : Config := { cuckooErrorRate := 0.25, logLevel := "debug", logFile := " \"#\r" }
    let line (p : Parameter) : List Char :=
      p.name.toList.map Char.toUpper ++ ([' '] ++ quoted (p.get c).toList)
    let lines := "# seven lines".toList :: [] :: Parameter.all.reverse.map line
    Reached c ∧ Spells c Parameter.all.reverse lines ∧
      parse (String.ofList (['\n'].intercalate lines)) = .ok c := by
  intro c line lines
  have hreached : Reached c := by
    have hread : parse "cf-default-error-rate 0.25\nloglevel debug" =
      .ok { cuckooErrorRate := 0.25, logLevel := "debug" } := rfl
    exact .attempted ⟨"logfile", " \"#\r"⟩ (.parsed hread)
  have hback : ∀ p : Parameter, p.ReadsBack (p.content c) := by
    intro p
    cases p with
    | bloomErrorRate => exact (by decide +kernel : Parameter.FloatReadsBack 0.01)
    | cuckooErrorRate => exact (by decide +kernel : Parameter.FloatReadsBack 0.25)
    | _ => trivial
  have hgap : IsGap [' '] := by
    intro ch hch
    obtain rfl := List.mem_singleton.mp hch
    exact ⟨by decide, by decide⟩
  have hsets : ∀ p, Sets c p (line p) := by
    intro p
    have hname : (p.name.toList.map Char.toUpper).map Char.toLower = p.name.toList := by
      cases p <;> decide
    have hline := Sets.line (c := c) isGap_nil hname hgap (by decide) isGap_nil
    rwa [List.nil_append, List.append_nil] at hline
  have hspells : Spells c Parameter.all.reverse lines := by
    have hcomment : Idle "# seven lines".toList := .comment isGap_nil (by decide)
    refine .idle hcomment (.idle (.blank isGap_nil) ?_)
    exact .sets (hsets _) <| .sets (hsets _) <| .sets (hsets _) <| .sets (hsets _) <|
      .sets (hsets _) <| .sets (hsets _) <| .sets (hsets _) .nil
  have horder : ∀ p : Parameter, p ∈ Parameter.all.reverse :=
    fun p => List.mem_reverse.mpr p.mem_all
  refine ⟨hreached, hspells, ?_⟩
  exact hreached.parse_eq hback (by decide) hspells horder String.toList_ofList

end Config

end CompactStore
