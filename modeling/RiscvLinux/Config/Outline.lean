import RiscvLinux.Config.FindKey
import RiscvLinux.Config.Parser

/-!
# The outline of a text

Whatever bytes a config text holds, the two walks over it, `find_key` and
`parse_config_string`, cut it the same way: into entries with a key, and values
that are strings, tokens or nested blocks. The outline of a text is the tree of
the cursors of that cut. It exists for every text (`exists_outline`), and either
walk is a recursion over it, so a fact about a walk is an induction over the
outline and not over the fuel.

The two walks differ in the test that ends their loops. `more` is that test: the
cursor is before `end`, or the cursor is not at the NUL.
-/

namespace RiscvLinux.Config

mutual

/-- The entries of a block, up to the cursor where its loop stops. -/
inductive Entries where
  | stop (str : Cursor)
  | entry (keyStart : Cursor) (values : Values) (rest : Entries)

/-- The values of an entry, up to the cursor where its loop stops. -/
inductive Values where
  | stop (str : Cursor)
  | string (str : Cursor) (rest : Values)
  | block (str : Cursor) (body : Entries) (rest : Values)
  | token (str : Cursor) (rest : Values)

end

/-- Where the walk over the entries stops. -/
def Entries.stopAt : Entries → Cursor
  | .stop str => str
  | .entry _ _ rest => rest.stopAt

/-- Where the walk over the values stops. -/
def Values.stopAt : Values → Cursor
  | .stop str => str
  | .string _ rest => rest.stopAt
  | .block _ _ rest => rest.stopAt
  | .token _ rest => rest.stopAt

mutual

/-- `entries` is the outline of the text at `str`, which is past white space. -/
def Entries.ReadsAt (more : Cursor → Bool) (str : Cursor) : Entries → Prop
  | .stop pos => pos = str ∧ ¬(more str ∧ deref str ≠ closeBrace)
  | .entry keyStart values rest =>
    keyStart = str ∧ (more str ∧ deref str ≠ closeBrace) ∧
      values.ReadsAt more (skipWhitespace (skipKey str)) ∧
      rest.ReadsAt more (skipWhitespace (skipChar semicolon values.stopAt))

/-- `values` is the outline of the rest of an entry at `str`. -/
def Values.ReadsAt (more : Cursor → Bool) (str : Cursor) : Values → Prop
  | .stop pos => pos = str ∧ ¬(more str ∧ deref str ≠ semicolon)
  | .string pos rest =>
    pos = str ∧ (more str ∧ deref str ≠ semicolon) ∧ deref str = quote ∧
      rest.ReadsAt more (skipWhitespace (skipString (inc str)))
  | .block pos body rest =>
    pos = str ∧ (more str ∧ deref str ≠ semicolon) ∧ deref str = openBrace ∧
      body.ReadsAt more (skipWhitespace (inc str)) ∧
      rest.ReadsAt more (skipWhitespace (skipChar closeBrace body.stopAt))
  | .token pos rest =>
    pos = str ∧ (more str ∧ deref str ≠ semicolon) ∧ deref str ≠ quote ∧
      deref str ≠ openBrace ∧
      rest.ReadsAt more (skipWhitespace (skipKey (inc str)))

end

mutual

/-- The depth of recursion that a walk over the outline needs. -/
def Entries.depth : Entries → Nat
  | .stop _ => 1
  | .entry _ values rest => 1 + max values.depth rest.depth

def Values.depth : Values → Nat
  | .stop _ => 1
  | .string _ rest => 1 + rest.depth
  | .block _ body rest => 1 + max (1 + body.depth) rest.depth
  | .token _ rest => 1 + rest.depth

end

/-- The test `end - start > 0` of `find_key`. -/
def beforeEnd (stop : Cursor) (str : Cursor) : Bool := decide (stop.length < str.length)

theorem beforeEnd_nil (stop : Cursor) : beforeEnd stop [] = false := rfl

/-- The test `*state.config` of `parse_config_string`. -/
def beforeNul (str : Cursor) : Bool := deref str != 0

theorem beforeNul_nil : beforeNul [] = false := rfl

/-! ## Every text has an outline -/

section Walk

variable {more : Cursor → Bool}

mutual

/-- The walk over the entries only moves forward. -/
theorem Entries.stopAt_suffix {str : Cursor} : ∀ entries : Entries,
    entries.ReadsAt more str → entries.stopAt <:+ str
  | .stop pos, ⟨here, _⟩ => by
    subst here
    exact List.suffix_rfl
  | .entry _ values rest, ⟨_, _, valuesRead, restRead⟩ => by
    have values_suffix := values.stopAt_suffix valuesRead
    have rest_suffix := rest.stopAt_suffix restRead
    exact rest_suffix.trans <| (skipWhitespace_suffix _).trans <| (skipChar_suffix _ _).trans <|
      values_suffix.trans <| (skipWhitespace_suffix _).trans (skipKey_suffix str)

/-- The walk over the values only moves forward. -/
theorem Values.stopAt_suffix {str : Cursor} : ∀ values : Values,
    values.ReadsAt more str → values.stopAt <:+ str
  | .stop pos, ⟨here, _⟩ => by
    subst here
    exact List.suffix_rfl
  | .string _ rest, ⟨_, _, _, restRead⟩ =>
    (rest.stopAt_suffix restRead).trans <| (skipWhitespace_suffix _).trans <|
      (skipString_suffix _).trans (inc_suffix str)
  | .block _ body rest, ⟨_, _, _, bodyRead, restRead⟩ =>
    (rest.stopAt_suffix restRead).trans <| (skipWhitespace_suffix _).trans <|
      (skipChar_suffix _ _).trans <| (body.stopAt_suffix bodyRead).trans <|
      (skipWhitespace_suffix _).trans (inc_suffix str)
  | .token _ rest, ⟨_, _, _, _, restRead⟩ =>
    (rest.stopAt_suffix restRead).trans <| (skipWhitespace_suffix _).trans <|
      (skipKey_suffix _).trans (inc_suffix str)

end

/-- The cursor of a loop that still runs is inside the memory. -/
theorem length_inc_lt_of_more (moreNil : more [] = false) {str : Cursor} (running : more str) :
    (inc str).length < str.length := by
  refine length_inc_lt ?_
  intro same
  subst same
  rw [moreNil] at running
  cases running

/-- A value moves the cursor. -/
theorem Values.length_stopAt_lt (moreNil : more [] = false) {str : Cursor} {values : Values}
    (read : values.ReadsAt more str) (running : more str ∧ deref str ≠ semicolon) :
    values.stopAt.length < str.length := by
  have inc_lt := length_inc_lt_of_more moreNil running.1
  have suffix : values.stopAt <:+ inc str := by
    cases values with
    | stop pos => exact absurd running read.2
    | string pos rest =>
      exact (rest.stopAt_suffix read.2.2.2).trans <| (skipWhitespace_suffix _).trans <|
        skipString_suffix _
    | block pos body rest =>
      exact (rest.stopAt_suffix read.2.2.2.2).trans <| (skipWhitespace_suffix _).trans <|
        (skipChar_suffix _ _).trans <| (body.stopAt_suffix read.2.2.2.1).trans <|
        skipWhitespace_suffix _
    | token pos rest =>
      exact (rest.stopAt_suffix read.2.2.2.2).trans <| (skipWhitespace_suffix _).trans <|
        skipKey_suffix _
  exact lt_of_le_of_lt suffix.length_le inc_lt

/-- One entry moves the cursor, although its key may be empty: then either a value
or the `;` is there to be consumed. -/
theorem length_nextEntry_lt (moreNil : more [] = false) {str : Cursor} {values : Values}
    (running : more str) (read : values.ReadsAt more (skipWhitespace (skipKey str))) :
    (skipWhitespace (skipChar semicolon values.stopAt)).length < str.length := by
  have key_suffix : skipWhitespace (skipKey str) <:+ str :=
    (skipWhitespace_suffix _).trans (skipKey_suffix str)
  have next_le : (skipWhitespace (skipChar semicolon values.stopAt)).length ≤
      (skipChar semicolon values.stopAt).length := (skipWhitespace_suffix _).length_le
  have char_le : (skipChar semicolon values.stopAt).length ≤ values.stopAt.length :=
    (skipChar_suffix _ _).length_le
  by_cases more_values :
      more (skipWhitespace (skipKey str)) ∧ deref (skipWhitespace (skipKey str)) ≠ semicolon
  · have values_lt := Values.length_stopAt_lt moreNil read more_values
    have := key_suffix.length_le
    omega
  · have stopped : values.stopAt = skipWhitespace (skipKey str) := by
      cases values with
      | stop pos => exact read.1
      | string pos rest => exact absurd read.2.1 more_values
      | block pos body rest => exact absurd read.2.1 more_values
      | token pos rest => exact absurd read.2.1 more_values
    rw [stopped] at next_le char_le ⊢
    by_cases moved : (skipWhitespace (skipKey str)).length < str.length
    · omega
    · have unmoved : skipWhitespace (skipKey str) = str :=
        key_suffix.eq_of_length_le (Nat.le_of_not_lt moved)
      rw [unmoved] at more_values next_le ⊢
      have at_semicolon : deref str = semicolon := by
        by_contra other
        exact more_values ⟨running, other⟩
      have inc_lt := length_inc_lt_of_more moreNil running
      rw [skipChar, if_pos at_semicolon] at next_le ⊢
      omega

/-- Every text has an outline, whatever its bytes are. -/
theorem exists_outline (moreNil : more [] = false) (str : Cursor) :
    (∃ values : Values, values.ReadsAt more str) ∧
      (∃ entries : Entries, entries.ReadsAt more str) := by
  induction len : str.length using Nat.strong_induction_on generalizing str with
  | _ n ih =>
    subst len
    have nextValues : ∀ next : Cursor, next <:+ inc str → more str →
        ∃ values : Values, values.ReadsAt more next := fun next suffix running =>
      (ih _ (lt_of_le_of_lt suffix.length_le (length_inc_lt_of_more moreNil running)) next rfl).1
    have valuesAt : ∃ values : Values, values.ReadsAt more str := by
      by_cases running : more str ∧ deref str ≠ semicolon
      · by_cases at_quote : deref str = quote
        · obtain ⟨rest, read⟩ := nextValues (skipWhitespace (skipString (inc str)))
            ((skipWhitespace_suffix _).trans (skipString_suffix _)) running.1
          exact ⟨.string str rest, rfl, running, at_quote, read⟩
        · by_cases at_brace : deref str = openBrace
          · obtain ⟨body, bodyRead⟩ := (ih _ (lt_of_le_of_lt (skipWhitespace_suffix _).length_le
              (length_inc_lt_of_more moreNil running.1)) (skipWhitespace (inc str)) rfl).2
            obtain ⟨rest, read⟩ := nextValues (skipWhitespace (skipChar closeBrace body.stopAt))
              ((skipWhitespace_suffix _).trans <| (skipChar_suffix _ _).trans <|
                (body.stopAt_suffix bodyRead).trans (skipWhitespace_suffix _)) running.1
            exact ⟨.block str body rest, rfl, running, at_brace, bodyRead, read⟩
          · obtain ⟨rest, read⟩ := nextValues (skipWhitespace (skipKey (inc str)))
              ((skipWhitespace_suffix _).trans (skipKey_suffix _)) running.1
            exact ⟨.token str rest, rfl, running, at_quote, at_brace, read⟩
      · exact ⟨.stop str, rfl, running⟩
    refine ⟨valuesAt, ?_⟩
    by_cases running : more str ∧ deref str ≠ closeBrace
    · -- the values may start at `str` itself, the next entry starts further on
      have key_suffix : skipWhitespace (skipKey str) <:+ str :=
        (skipWhitespace_suffix _).trans (skipKey_suffix str)
      have valuesRead : ∃ values : Values, values.ReadsAt more (skipWhitespace (skipKey str)) := by
        by_cases moved : (skipWhitespace (skipKey str)).length < str.length
        · exact (ih _ moved _ rfl).1
        · rw [key_suffix.eq_of_length_le (Nat.le_of_not_lt moved)]
          exact valuesAt
      rcases valuesRead with ⟨values, read⟩
      obtain ⟨rest, restRead⟩ :=
        (ih _ (length_nextEntry_lt moreNil running.1 read) _ rfl).2
      exact ⟨.entry str values rest, rfl, running, read, restRead⟩
    · exact ⟨.stop str, rfl, running⟩

mutual

/-- The fuel that `findKey` and the passes supply is enough for any outline. -/
theorem Entries.depth_le (moreNil : more [] = false) {str : Cursor} : ∀ entries : Entries,
    entries.ReadsAt more str → entries.depth ≤ 3 * str.length + 2
  | .stop _, _ => by simp [Entries.depth]
  | .entry _ values rest, ⟨_, running, valuesRead, restRead⟩ => by
    have values_le := values.depth_le moreNil valuesRead
    have rest_le := rest.depth_le moreNil restRead
    have rest_lt := length_nextEntry_lt moreNil running.1 valuesRead
    have key_le : (skipWhitespace (skipKey str)).length ≤ str.length :=
      ((skipWhitespace_suffix _).trans (skipKey_suffix str)).length_le
    simp only [Entries.depth]
    omega

theorem Values.depth_le (moreNil : more [] = false) {str : Cursor} : ∀ values : Values,
    values.ReadsAt more str → values.depth ≤ 3 * str.length + 1
  | .stop _, _ => by simp [Values.depth]
  | .string _ rest, ⟨_, running, _, restRead⟩ => by
    have rest_le := rest.depth_le moreNil restRead
    have next_le : (skipWhitespace (skipString (inc str))).length ≤ (inc str).length :=
      ((skipWhitespace_suffix _).trans (skipString_suffix _)).length_le
    have inc_lt := length_inc_lt_of_more moreNil running.1
    simp only [Values.depth]
    omega
  | .block _ body rest, ⟨_, running, _, bodyRead, restRead⟩ => by
    have body_le := body.depth_le moreNil bodyRead
    have rest_le := rest.depth_le moreNil restRead
    have start_le : (skipWhitespace (inc str)).length ≤ (inc str).length :=
      (skipWhitespace_suffix _).length_le
    have next_le : (skipWhitespace (skipChar closeBrace body.stopAt)).length ≤
        (skipWhitespace (inc str)).length :=
      ((skipWhitespace_suffix _).trans <| (skipChar_suffix _ _).trans
        (body.stopAt_suffix bodyRead)).length_le
    have inc_lt := length_inc_lt_of_more moreNil running.1
    simp only [Values.depth]
    omega
  | .token _ rest, ⟨_, running, _, _, restRead⟩ => by
    have rest_le := rest.depth_le moreNil restRead
    have next_le : (skipWhitespace (skipKey (inc str))).length ≤ (inc str).length :=
      ((skipWhitespace_suffix _).trans (skipKey_suffix _)).length_le
    have inc_lt := length_inc_lt_of_more moreNil running.1
    simp only [Values.depth]
    omega

end

end Walk

end RiscvLinux.Config
