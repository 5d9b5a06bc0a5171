import RiscvLinux.Config.Outline

/-!
# Well-formed config texts

A document is a tree of entries `key value... ;` as a person writes it, with the
white space between its parts. Its pieces carry what makes them the pieces they
are, so what is left to ask of a document is that no two words touch. The outline
that the walks find in the printed document is the document.
-/

namespace RiscvLinux.Config

/-! ## Pieces -/

/-- White space, possibly none. -/
structure Blank where
  bytes : Bytes
  blank : ∀ c ∈ bytes, isSpace c = true

/-- A key, possibly empty. -/
structure Key where
  bytes : Bytes
  keyChars : ∀ c ∈ bytes, isKeyChar c = true

/-- A bare token. -/
structure Token where
  bytes : Bytes
  keyChars : ∀ c ∈ bytes, isKeyChar c = true
  nonempty : bytes ≠ []

/-- What stands between two quotes. -/
structure Quoted where
  bytes : Bytes
  plain : ∀ c ∈ bytes, c ≠ 0 ∧ c ≠ quote

/-! The pieces that the documents of examples are made of -/

theorem isSpace_nil : ∀ c ∈ ([] : Bytes), isSpace c = true := List.all_eq_true.mp rfl

theorem isSpace_space : ∀ c ∈ ([32] : Bytes), isSpace c = true := List.all_eq_true.mp rfl

theorem isKeyChar_a : ∀ c ∈ ([97] : Bytes), isKeyChar c = true := List.all_eq_true.mp rfl

theorem isKeyChar_b : ∀ c ∈ ([98] : Bytes), isKeyChar c = true := List.all_eq_true.mp rfl

theorem isKeyChar_c : ∀ c ∈ ([99] : Bytes), isKeyChar c = true := List.all_eq_true.mp rfl

theorem isKeyChar_one : ∀ c ∈ ([49] : Bytes), isKeyChar c = true := List.all_eq_true.mp rfl

theorem isKeyChar_two : ∀ c ∈ ([50] : Bytes), isKeyChar c = true := List.all_eq_true.mp rfl

theorem isKeyChar_interfaceKey : ∀ c ∈ interfaceKey, isKeyChar c = true :=
  List.all_eq_true.mp rfl

theorem one_ne_nil : ([49] : Bytes) ≠ [] := List.cons_ne_nil _ _

theorem two_ne_nil : ([50] : Bytes) ≠ [] := List.cons_ne_nil _ _

mutual

/-- The entries of a block. -/
inductive Doc where
  | nil
  | entry (key : Key) (gap : Blank) (values : Vals) (after : Blank) (rest : Doc)

/-- The values of an entry. -/
inductive Vals where
  | nil
  | string (body : Quoted) (after : Blank) (rest : Vals)
  | block (lead : Blank) (body : Doc) (after : Blank) (rest : Vals)
  | token (word : Token) (after : Blank) (rest : Vals)

end

mutual

/-- The text of a document, before `tail`. -/
def Doc.print : Doc → Bytes → Bytes
  | .nil, tail => tail
  | .entry key gap values after rest, tail =>
    key.bytes ++ (gap.bytes ++ values.print (semicolon :: (after.bytes ++ rest.print tail)))

/-- The text of the values of an entry, before `tail`. -/
def Vals.print : Vals → Bytes → Bytes
  | .nil, tail => tail
  | .string body after rest, tail =>
    quote :: (body.bytes ++ quote :: (after.bytes ++ rest.print tail))
  | .block lead body after rest, tail =>
    openBrace :: (lead.bytes ++ body.print (closeBrace :: (after.bytes ++ rest.print tail)))
  | .token word after rest, tail => word.bytes ++ (after.bytes ++ rest.print tail)

end

/-- The values start with a bare token. -/
def Vals.StartsWithToken : Vals → Prop
  | .token _ _ _ => True
  | _ => False

mutual

/-- No two words of the document touch, and no white space stands before an entry
that is not counted with what precedes it. -/
def Doc.WellFormed : Doc → Prop
  | .nil => True
  | .entry key gap values _ rest =>
    (key.bytes = [] → gap.bytes = []) ∧ (gap.bytes = [] → ¬ values.StartsWithToken) ∧
      values.WellFormed ∧ rest.WellFormed

def Vals.WellFormed : Vals → Prop
  | .nil => True
  | .string _ _ rest => rest.WellFormed
  | .block _ body _ rest => body.WellFormed ∧ rest.WellFormed
  | .token _ after rest => (after.bytes = [] → ¬ rest.StartsWithToken) ∧ rest.WellFormed

end

mutual

/-- The outline of a printed document. -/
def Doc.outline : Doc → Bytes → Entries
  | .nil, tail => .stop (skipWhitespace tail)
  | .entry key gap values after rest, tail =>
    .entry (Doc.print (.entry key gap values after rest) tail)
      (values.outline (semicolon :: (after.bytes ++ rest.print tail))) (rest.outline tail)

/-- The outline of printed values. -/
def Vals.outline : Vals → Bytes → Values
  | .nil, tail => .stop tail
  | .string body after rest, tail =>
    .string (Vals.print (.string body after rest) tail) (rest.outline tail)
  | .block lead body after rest, tail =>
    .block (Vals.print (.block lead body after rest) tail)
      (body.outline (closeBrace :: (after.bytes ++ rest.print tail))) (rest.outline tail)
  | .token word after rest, tail =>
    .token (Vals.print (.token word after rest) tail) (rest.outline tail)

end

/-! ## Scanning the pieces -/

theorem isKeyChar_of_isSpace {c : Byte} (space : isSpace c = true) : isKeyChar c = false := by
  unfold isSpace at space
  unfold isKeyChar
  grind

theorem isSpace_of_isKeyChar {c : Byte} (keyChar : isKeyChar c = true) : isSpace c = false := by
  unfold isKeyChar at keyChar
  unfold isSpace
  grind

/-- A key character starts neither a string nor a block, and ends no entry. -/
theorem ne_of_isKeyChar {c : Byte} (keyChar : isKeyChar c = true) :
    c ≠ 0 ∧ c ≠ quote ∧ c ≠ semicolon ∧ c ≠ openBrace ∧ c ≠ closeBrace := by
  unfold isKeyChar at keyChar
  simp only [quote, semicolon, openBrace, closeBrace] at *
  grind

theorem dropWhile_of_deref {p : Byte → Bool} {str : Cursor} (stopped : p (deref str) = false) :
    str.dropWhile p = str := by
  cases str with
  | nil => rfl
  | cons c s => exact List.dropWhile_cons_of_neg (by simpa using stopped)

theorem dropWhile_append_of_deref {p : Byte → Bool} {piece str : Cursor}
    (all : ∀ c ∈ piece, p c = true) (stopped : p (deref str) = false) :
    (piece ++ str).dropWhile p = str := by
  rw [List.dropWhile_append_of_pos all, dropWhile_of_deref stopped]

theorem Blank.skipWhitespace_append (blank : Blank) (str : Cursor) :
    skipWhitespace (blank.bytes ++ str) = skipWhitespace str :=
  List.dropWhile_append_of_pos blank.blank

/-- Where a blank is followed by no key character unless it is not empty, a word
before it ends. -/
theorem Blank.isKeyChar_deref (blank : Blank) {str : Cursor}
    (apart : blank.bytes = [] → isKeyChar (deref str) = false) :
    isKeyChar (deref (blank.bytes ++ str)) = false := by
  cases bytes : blank.bytes with
  | nil => exact apart bytes
  | cons c s => exact isKeyChar_of_isSpace (blank.blank c (by simp [bytes]))

theorem Quoted.skipString_append (body : Quoted) (str : Cursor) :
    skipString (body.bytes ++ quote :: str) = str := by
  rcases body with ⟨bytes, plain⟩
  induction bytes with
  | nil => rfl
  | cons c s ih =>
    obtain ⟨nonzero, notQuote⟩ := plain c (List.mem_cons_self ..)
    rw [List.cons_append, skipString, if_neg nonzero, if_neg notQuote]
    exact ih fun d mem => plain d (List.mem_cons_of_mem c mem)

/-- The first byte of the values of an entry. -/
theorem Vals.deref_print (values : Vals) (tail : Bytes) :
    isSpace (deref (values.print (semicolon :: tail))) = false ∧
      (¬ values.StartsWithToken → isKeyChar (deref (values.print (semicolon :: tail))) = false) ∧
      deref (values.print (semicolon :: tail)) ≠ 0 ∧
      deref (values.print (semicolon :: tail)) ≠ closeBrace := by
  cases values with
  | nil =>
    simp only [Vals.print, deref_cons]
    exact ⟨rfl, fun _ => rfl, by decide, by decide⟩
  | string body after rest =>
    simp only [Vals.print, deref_cons]
    exact ⟨rfl, fun _ => rfl, by decide, by decide⟩
  | block lead body after rest =>
    simp only [Vals.print, deref_cons]
    exact ⟨rfl, fun _ => rfl, by decide, by decide⟩
  | token word after rest =>
    obtain ⟨c, s, bytes⟩ := List.exists_cons_of_ne_nil word.nonempty
    have keyChar : isKeyChar c = true := word.keyChars c (by simp [bytes])
    have other := ne_of_isKeyChar keyChar
    simp only [Vals.print, bytes, List.cons_append, deref_cons]
    exact ⟨isSpace_of_isKeyChar keyChar, fun notToken => absurd trivial notToken, other.1,
      other.2.2.2.2⟩

/-- The first byte of an entry. -/
theorem Doc.deref_print_entry {key : Key} {gap : Blank} {values : Vals} {after : Blank}
    {rest : Doc} (tail : Bytes) (wellFormed : (Doc.entry key gap values after rest).WellFormed) :
    isSpace (deref ((Doc.entry key gap values after rest).print tail)) = false ∧
      deref ((Doc.entry key gap values after rest).print tail) ≠ 0 ∧
      deref ((Doc.entry key gap values after rest).print tail) ≠ closeBrace := by
  rcases wellFormed with ⟨noKey, -⟩
  simp only [Doc.print]
  cases bytes : key.bytes with
  | nil =>
    rw [noKey bytes]
    obtain ⟨notSpace, -, nonzero, notBrace⟩ :=
      values.deref_print (after.bytes ++ rest.print tail)
    exact ⟨notSpace, nonzero, notBrace⟩
  | cons c s =>
    have keyChar : isKeyChar c = true := key.keyChars c (by simp [bytes])
    have other := ne_of_isKeyChar keyChar
    exact ⟨isSpace_of_isKeyChar keyChar, other.1, other.2.2.2.2⟩

/-- The key of an entry ends where its values or the gap before them start. -/
theorem Doc.skipKey_print {key : Key} {gap : Blank} {values : Vals} {after : Blank} {rest : Doc}
    (tail : Bytes) (apart : gap.bytes = [] → ¬ values.StartsWithToken) :
    skipKey ((Doc.entry key gap values after rest).print tail) =
      gap.bytes ++ values.print (semicolon :: (after.bytes ++ rest.print tail)) :=
  dropWhile_append_of_deref key.keyChars
    (gap.isKeyChar_deref fun none => (values.deref_print _).2.1 (apart none))

mutual

/-- What follows a document follows its text. -/
theorem Doc.suffix_print (tail : Bytes) : ∀ doc : Doc, tail <:+ doc.print tail
  | .nil => List.suffix_rfl
  | .entry _ _ values _ rest =>
    (rest.suffix_print tail).trans <| (List.suffix_append _ _).trans <|
      (List.suffix_cons semicolon _).trans <| (values.suffix_print _).trans <|
      (List.suffix_append _ _).trans (List.suffix_append _ _)

theorem Vals.suffix_print (tail : Bytes) : ∀ values : Vals, tail <:+ values.print tail
  | .nil => List.suffix_rfl
  | .string _ _ rest =>
    (rest.suffix_print tail).trans <| (List.suffix_append _ _).trans <|
      (List.suffix_cons quote _).trans <| (List.suffix_append _ _).trans (List.suffix_cons _ _)
  | .block _ body _ rest =>
    (rest.suffix_print tail).trans <| (List.suffix_append _ _).trans <|
      (List.suffix_cons closeBrace _).trans <| (body.suffix_print _).trans <|
      (List.suffix_append _ _).trans (List.suffix_cons _ _)
  | .token _ _ rest =>
    (rest.suffix_print tail).trans <| (List.suffix_append _ _).trans (List.suffix_append _ _)

end

/-! ## The text as a string -/

theorem strlen_append {name : Bytes} (nulFree : 0 ∉ name) (junk : Bytes) :
    strlen (name ++ 0 :: junk) = name.length := by
  induction name with
  | nil => rfl
  | cons c s ih =>
    have nonzero : c ≠ 0 := fun eq => nulFree (by simp [eq])
    rw [List.cons_append, strlen, if_neg nonzero,
      ih fun mem => nulFree (List.mem_cons_of_mem c mem),
      List.length_cons]

mutual

/-- What follows a document in its text can be split off. -/
theorem Doc.print_append (tail more : Bytes) : ∀ doc : Doc,
    doc.print (tail ++ more) = doc.print tail ++ more
  | .nil => rfl
  | .entry key gap values after rest => by
    have inValues := values.print_append (semicolon :: (after.bytes ++ rest.print tail)) more
    simp only [Doc.print, rest.print_append tail more]
    simpa using inValues

theorem Vals.print_append (tail more : Bytes) : ∀ values : Vals,
    values.print (tail ++ more) = values.print tail ++ more
  | .nil => rfl
  | .string body after rest => by simp [Vals.print, rest.print_append tail more]
  | .block lead body after rest => by
    have inBody := body.print_append (closeBrace :: (after.bytes ++ rest.print tail)) more
    simp only [Vals.print, rest.print_append tail more]
    simpa using inBody
  | .token word after rest => by simp [Vals.print, rest.print_append tail more]

end

theorem Blank.nulFree (blank : Blank) : 0 ∉ blank.bytes := fun mem => by
  have space := blank.blank 0 mem
  simp [isSpace] at space

theorem zero_notMem_of_keyChars {bytes : Bytes} (keyChars : ∀ c ∈ bytes, isKeyChar c = true) :
    0 ∉ bytes := fun mem => absurd (keyChars 0 mem) (by decide)

mutual

/-- A document has no NUL. -/
theorem Doc.nulFree {tail : Bytes} (nulFree : 0 ∉ tail) : ∀ doc : Doc, 0 ∉ doc.print tail
  | .nil => nulFree
  | .entry key gap values after rest => by
    have inRest := rest.nulFree nulFree
    have inValues : 0 ∉ values.print (semicolon :: (after.bytes ++ rest.print tail)) :=
      values.nulFree (by simp [semicolon, after.nulFree, inRest])
    simp [Doc.print, zero_notMem_of_keyChars key.keyChars, gap.nulFree, inValues]

theorem Vals.nulFree {tail : Bytes} (nulFree : 0 ∉ tail) : ∀ values : Vals, 0 ∉ values.print tail
  | .nil => nulFree
  | .string body after rest => by
    have inRest := rest.nulFree nulFree
    have inBody : 0 ∉ body.bytes := fun mem => (body.plain 0 mem).1 rfl
    simp [Vals.print, quote, inBody, after.nulFree, inRest]
  | .block lead body after rest => by
    have inRest := rest.nulFree nulFree
    have inBody : 0 ∉ body.print (closeBrace :: (after.bytes ++ rest.print tail)) :=
      body.nulFree (by simp [closeBrace, after.nulFree, inRest])
    simp [Vals.print, openBrace, lead.nulFree, inBody]
  | .token word after rest => by
    have inRest := rest.nulFree nulFree
    simp [Vals.print, zero_notMem_of_keyChars word.keyChars, after.nulFree, inRest]

end

/-! ## The outline of a document -/

/-- The test `more` holds of every byte of a text that ends at `bottom`. -/
def RunsTo (more : Cursor → Bool) (bottom : Bytes) : Prop :=
  ∀ str : Cursor, deref str ≠ 0 → bottom.length < str.length → more str = true

theorem runsTo_beforeEnd (stop : Bytes) : RunsTo (beforeEnd stop) stop :=
  fun _ _ inside => decide_eq_true inside

theorem runsTo_beforeNul (bottom : Bytes) : RunsTo beforeNul bottom :=
  fun _ nonzero _ => bne_iff_ne.mpr nonzero

theorem Vals.stopAt_outline (tail : Bytes) : ∀ values : Vals, (values.outline tail).stopAt = tail
  | .nil => rfl
  | .string _ _ rest => rest.stopAt_outline tail
  | .block _ _ _ rest => rest.stopAt_outline tail
  | .token _ _ rest => rest.stopAt_outline tail

theorem Doc.stopAt_outline (tail : Bytes) : ∀ doc : Doc,
    (doc.outline tail).stopAt = skipWhitespace tail
  | .nil => rfl
  | .entry _ _ _ _ rest => rest.stopAt_outline tail

/-- An entry is longer than what follows it. -/
theorem Doc.length_lt_print (key : Key) (gap : Blank) (values : Vals) (after : Blank) (rest : Doc)
    (tail : Bytes) :
    (rest.print tail).length < ((Doc.entry key gap values after rest).print tail).length := by
  have values_le := (values.suffix_print (semicolon :: (after.bytes ++ rest.print tail))).length_le
  simp only [List.length_cons, List.length_append] at values_le
  simp only [Doc.print, List.length_append]
  omega

/-- The values of an entry and its `;` are longer than what follows them. -/
theorem Vals.length_lt_print (values : Vals) (tail : Bytes) :
    tail.length < (values.print (semicolon :: tail)).length :=
  (values.suffix_print (semicolon :: tail)).length_le

section Reads

variable {more : Cursor → Bool} {bottom : Bytes}

mutual

/-- A printed document reads back as its outline, whatever test ends the walk, so
long as it holds inside the text and the walk stops after it. -/
theorem Doc.readsAt (runs : RunsTo more bottom) {tail : Bytes} : ∀ doc : Doc, doc.WellFormed →
    bottom.length ≤ tail.length →
    ¬(more (skipWhitespace tail) ∧ deref (skipWhitespace tail) ≠ closeBrace) →
    (doc.outline tail).ReadsAt more (skipWhitespace (doc.print tail))
  | .nil, _, _, stopped => ⟨rfl, stopped⟩
  | .entry key gap values after rest, wellFormed, inside, stopped => by
    obtain ⟨notSpace, nonzero, notBrace⟩ := Doc.deref_print_entry tail wellFormed
    rcases wellFormed with ⟨-, apart, valuesFormed, restFormed⟩
    have valuesSpace := (values.deref_print (after.bytes ++ rest.print tail)).1
    have shorter := Doc.length_lt_print key gap values after rest tail
    have restInside := (rest.suffix_print tail).length_le
    have here : skipWhitespace ((Doc.entry key gap values after rest).print tail) =
        (Doc.entry key gap values after rest).print tail := dropWhile_of_deref notSpace
    have keyEnds : skipWhitespace (skipKey ((Doc.entry key gap values after rest).print tail)) =
        values.print (semicolon :: (after.bytes ++ rest.print tail)) := by
      rw [Doc.skipKey_print tail apart, gap.skipWhitespace_append]
      exact dropWhile_of_deref valuesSpace
    have next : skipWhitespace (skipChar semicolon
        (values.outline (semicolon :: (after.bytes ++ rest.print tail))).stopAt) =
        skipWhitespace (rest.print tail) := by
      rw [values.stopAt_outline]
      exact after.skipWhitespace_append _
    rw [here]
    refine ⟨rfl, ⟨runs _ nonzero (by omega), notBrace⟩, ?_, ?_⟩
    · rw [keyEnds]
      refine values.readsAt runs valuesFormed ?_
      rw [List.length_append]
      omega
    · rw [next]
      exact rest.readsAt runs restFormed inside stopped

theorem Vals.readsAt (runs : RunsTo more bottom) {tail : Bytes} : ∀ values : Vals,
    values.WellFormed → bottom.length ≤ tail.length →
    (values.outline (semicolon :: tail)).ReadsAt more (values.print (semicolon :: tail))
  | .nil, _, _ => ⟨rfl, fun running => running.2 rfl⟩
  | .string body after rest, wellFormed, inside => by
    have shorter := rest.length_lt_print tail
    have next : skipWhitespace (skipString (inc ((Vals.string body after rest).print
        (semicolon :: tail)))) = rest.print (semicolon :: tail) := by
      simp only [Vals.print, inc_cons]
      rw [body.skipString_append, after.skipWhitespace_append]
      exact dropWhile_of_deref (rest.deref_print tail).1
    refine ⟨rfl, ⟨runs _ (show quote ≠ 0 by decide) ?_, show quote ≠ semicolon by decide⟩, rfl, ?_⟩
    · simp only [Vals.print, List.length_cons, List.length_append]
      omega
    · rw [next]
      exact rest.readsAt runs wellFormed inside
  | .block lead body after rest, wellFormed, inside => by
    have shorter := rest.length_lt_print tail
    have shorterBody :=
      (body.suffix_print (closeBrace :: (after.bytes ++ rest.print (semicolon :: tail)))).length_le
    have start :
        skipWhitespace (inc ((Vals.block lead body after rest).print (semicolon :: tail))) =
        skipWhitespace (body.print
          (closeBrace :: (after.bytes ++ rest.print (semicolon :: tail)))) := by
      simp only [Vals.print, inc_cons]
      exact lead.skipWhitespace_append _
    have atClose : skipWhitespace (closeBrace :: (after.bytes ++ rest.print (semicolon :: tail))) =
        closeBrace :: (after.bytes ++ rest.print (semicolon :: tail)) := dropWhile_of_deref rfl
    have next : skipWhitespace (skipChar closeBrace (body.outline
        (closeBrace :: (after.bytes ++ rest.print (semicolon :: tail)))).stopAt) =
        rest.print (semicolon :: tail) := by
      rw [body.stopAt_outline, atClose]
      exact (after.skipWhitespace_append _).trans (dropWhile_of_deref (rest.deref_print tail).1)
    simp only [List.length_cons, List.length_append] at shorterBody
    refine ⟨rfl, ⟨runs _ (show openBrace ≠ 0 by decide) ?_,
      show openBrace ≠ semicolon by decide⟩, rfl, ?_, ?_⟩
    · simp only [Vals.print, List.length_cons, List.length_append]
      omega
    · rw [start]
      refine body.readsAt runs wellFormed.1 ?_ ?_
      · simp only [List.length_cons, List.length_append]
        omega
      · rw [atClose]
        exact fun running => running.2 rfl
    · rw [next]
      exact rest.readsAt runs wellFormed.2 inside
  | .token word after rest, wellFormed, inside => by
    obtain ⟨c, s, bytes⟩ := List.exists_cons_of_ne_nil word.nonempty
    have keyChars : ∀ d ∈ c :: s, isKeyChar d = true := bytes ▸ word.keyChars
    have other := ne_of_isKeyChar (keyChars c (List.mem_cons_self ..))
    have shorter := rest.length_lt_print tail
    have next : skipWhitespace (skipKey (inc ((Vals.token word after rest).print
        (semicolon :: tail)))) = rest.print (semicolon :: tail) := by
      have ends : skipKey (s ++ (after.bytes ++ rest.print (semicolon :: tail))) =
          after.bytes ++ rest.print (semicolon :: tail) :=
        dropWhile_append_of_deref (fun d mem => keyChars d (List.mem_cons_of_mem c mem))
          (after.isKeyChar_deref fun none => (rest.deref_print tail).2.1 (wellFormed.1 none))
      simp only [Vals.print, bytes, List.cons_append, inc_cons]
      rw [ends, after.skipWhitespace_append]
      exact dropWhile_of_deref (rest.deref_print tail).1
    have first : deref ((Vals.token word after rest).print (semicolon :: tail)) = c := by
      simp only [Vals.print, bytes, List.cons_append, deref_cons]
    refine ⟨rfl, ⟨runs _ ?_ ?_, ?_⟩, ?_, ?_, ?_⟩
    · rw [first]
      exact other.1
    · simp only [Vals.print, List.length_append]
      omega
    · rw [first]
      exact other.2.2.1
    · rw [first]
      exact other.2.1
    · rw [first]
      exact other.2.2.2.1
    · rw [next]
      exact rest.readsAt runs wellFormed.2 inside

end

end Reads

/-- The outline of the text that a document prints is the outline of the document. -/
theorem Doc.reads_config (doc : Doc) (lead : Blank) (junk : Bytes) (wellFormed : doc.WellFormed) :
    (doc.outline (0 :: junk)).ReadsAt beforeNul
      (skipWhitespace (lead.bytes ++ doc.print (0 :: junk))) := by
  rw [lead.skipWhitespace_append]
  refine doc.readsAt (runsTo_beforeNul []) wellFormed (Nat.zero_le _) fun running => ?_
  exact Bool.noConfusion running.1

end RiscvLinux.Config
