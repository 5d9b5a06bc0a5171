import RiscvLinux.Config.Number

/-!
# Strings of the config text

`parse_string` copies a quoted string or a bare token to a buffer of `maxlen`
bytes and returns the length of the whole value with its NUL, whether or not it
fitted. `unescape` and `tokenBytes` are the values themselves, and the two
`_eq` theorems say that the copy is the value with its NUL, cut at `maxlen`.
-/

namespace RiscvLinux.Config

/-! ## `parse_string` -/

/-- One pass of a copying loop: count `ch`, and store it while there is room.
`rest` is what the passes after it do with the room that is left. -/
def copyChar (ch : Byte) (maxlen : Nat) (rest : Nat → Nat × Bytes) : Nat × Bytes :=
  let (out, stored) := rest (maxlen - 1)
  (out + 1, if maxlen ≠ 0 then ch :: stored else stored)

/-- `if (maxlen) *output = 0; ++out;` -/
def copyNul (maxlen : Nat) : Nat × Bytes := (1, if maxlen ≠ 0 then [0] else [])

/-- `parse_quoted_string`, from after the opening quote: the returned length and
the bytes stored at `output`. -/
def parseQuotedString : Cursor → Nat → Nat × Bytes
  | [], maxlen => copyNul maxlen
  | c :: s, maxlen =>
    if c = 0 ∨ c = quote then copyNul maxlen
    else
      match c, s with
      -- `\x` and two hex digits, `\x` and one, and every other character
      | 92, 120 :: a :: b :: s =>
        if isHex a then
          if isHex b then copyChar ((parseHex a <<< 4) + parseHex b) maxlen (parseQuotedString s)
          else copyChar (parseHex a) maxlen (parseQuotedString (b :: s))
        else copyChar 92 maxlen (parseQuotedString (120 :: a :: b :: s))
      | 92, [120, a] =>
        if isHex a then copyChar (parseHex a) maxlen (parseQuotedString [])
        else copyChar 92 maxlen (parseQuotedString [120, a])
      | c, s => copyChar c maxlen (parseQuotedString s)

/-- The token loop of `parse_string`. -/
def parseBareString : Cursor → Nat → Nat × Bytes
  | [], maxlen => copyNul maxlen
  | c :: s, maxlen =>
    if isKeyChar c then copyChar c maxlen (parseBareString s) else copyNul maxlen

/-- `parse_string` -/
def parseString (str : Cursor) (maxlen : Nat) : Nat × Bytes :=
  if deref str = quote then parseQuotedString (inc str) maxlen else parseBareString str maxlen

/-! ## The value of a string -/

/-- The bytes a quoted string spells, from after its opening quote. -/
def unescape : Cursor → Bytes
  | [] => []
  | c :: s =>
    if c = 0 ∨ c = quote then []
    else
      match c, s with
      | 92, 120 :: a :: b :: s =>
        if isHex a then
          if isHex b then ((parseHex a <<< 4) + parseHex b) :: unescape s
          else parseHex a :: unescape (b :: s)
        else 92 :: unescape (120 :: a :: b :: s)
      | 92, [120, a] =>
        if isHex a then [parseHex a] else 92 :: unescape [120, a]
      | c, s => c :: unescape s

/-- The bytes of the bare token at `str`. -/
def tokenBytes (str : Cursor) : Bytes := str.takeWhile isKeyChar

/-- The value `parse_string` reads. -/
def stringValue (str : Cursor) : Bytes :=
  if deref str = quote then unescape (inc str) else tokenBytes str

/-- A copy of `value` into `maxlen` bytes: the full length is returned, and the
value with its NUL is cut at `maxlen`. -/
def copyOf (value : Bytes) (maxlen : Nat) : Nat × Bytes :=
  (value.length + 1, (value ++ [0]).take maxlen)

theorem copyNul_eq : copyNul = copyOf [] := by
  funext maxlen
  cases maxlen <;> simp [copyNul, copyOf]

theorem copyChar_eq (ch : Byte) (maxlen : Nat) (value : Bytes) :
    copyChar ch maxlen (copyOf value) = copyOf (ch :: value) maxlen := by
  cases maxlen <;> simp [copyChar, copyOf]

theorem parseQuotedString_eq (str : Cursor) :
    parseQuotedString str = copyOf (unescape str) := by
  induction str using unescape.induct with
  | case1 => exact copyNul_eq
  | case2 c s stop =>
    funext maxlen
    unfold parseQuotedString unescape
    rw [if_pos stop, if_pos stop, copyNul_eq]
  | case6 a hex => funext maxlen; simp_all [parseQuotedString, unescape, copyNul_eq, copyChar_eq]
  | _ => funext maxlen; simp_all [parseQuotedString, unescape, copyChar_eq]

theorem parseBareString_eq (str : Cursor) :
    parseBareString str = copyOf (tokenBytes str) := by
  induction str with
  | nil => exact copyNul_eq
  | cons c s ih =>
    funext maxlen
    rw [parseBareString, tokenBytes, List.takeWhile_cons]
    split
    · rw [ih, copyChar_eq]; rfl
    · rw [copyNul_eq]

theorem parseString_eq (str : Cursor) : parseString str = copyOf (stringValue str) := by
  funext maxlen
  unfold parseString stringValue
  split
  · rw [parseQuotedString_eq]
  · rw [parseBareString_eq]

/-! ## Escapes -/

/-- A character that starts no escape stands for itself. -/
theorem unescape_other {c : Byte} {s : Cursor} (inside : ¬(c = 0 ∨ c = quote))
    (other : ∀ a t, c = 92 → s = 120 :: a :: t → isHex a = false) :
    unescape (c :: s) = c :: unescape s := by
  rw [unescape.eq_def]
  dsimp only
  rw [if_neg inside]
  split
  · next a b t => rw [if_neg (by rw [other a _ rfl rfl]; decide)]
  · next a => rw [if_neg (by rw [other a _ rfl rfl]; decide)]
  · rfl

/-- An escape with one hex digit. -/
theorem unescape_digit {a : Byte} {s : Cursor} (hex : isHex a = true)
    (one : isHex (deref s) = false) :
    unescape (92 :: 120 :: a :: s) = parseHex a :: unescape s := by
  cases s with
  | nil => simp [unescape, hex, quote]
  | cons b s =>
    rw [deref_cons] at one
    simp [unescape, hex, one, quote]

/-- An escape with two hex digits. -/
theorem unescape_digits {a b : Byte} {s : Cursor} (hex : isHex a = true) (two : isHex b = true) :
    unescape (92 :: 120 :: a :: b :: s) = ((parseHex a <<< 4) + parseHex b) :: unescape s := by
  simp [unescape, hex, two, quote]

theorem unescape_quote (rest : Cursor) : unescape (quote :: rest) = [] := by
  rw [unescape.eq_def]
  dsimp only
  rw [if_pos (.inr rfl)]

/-- The closing quote makes no escape: it is no digit. -/
theorem noEscape_append {c : Byte} {s : Cursor} (rest : Cursor)
    (other : ∀ a t, c = 92 → s = 120 :: a :: t → isHex a = false) :
    ∀ a t, c = 92 → s ++ quote :: rest = 120 :: a :: t → isHex a = false := by
  intro a t eq eq'
  match s, eq' with
  | [], eq' => cases eq'
  | [_], eq' =>
    obtain ⟨rfl, rfl, -⟩ : _ ∧ quote = a ∧ _ := by simpa using eq'
    rfl
  | _ :: b :: s, eq' =>
    obtain ⟨rfl, rfl, -⟩ : _ ∧ b = a ∧ _ := by simpa using eq'
    exact other b s eq rfl

/-- A quoted string spells the same in a text as alone. -/
theorem unescape_append (bytes rest : Cursor) (plain : ∀ c ∈ bytes, c ≠ 0 ∧ c ≠ quote) :
    unescape (bytes ++ quote :: rest) = unescape bytes := by
  induction len : bytes.length using Nat.strong_induction_on generalizing bytes with
  | _ n ih =>
    subst len
    cases bytes with
    | nil => exact unescape_quote rest
    | cons c s =>
      have inside := not_or.mpr (plain c (List.mem_cons_self ..))
      by_cases escape : ∃ a t, c = 92 ∧ s = 120 :: a :: t ∧ isHex a = true
      · rcases escape with ⟨a, t, rfl, rfl, hex⟩
        by_cases two : isHex (deref t) = true
        · cases t with
          | nil => cases two
          | cons b t =>
            rw [deref_cons] at two
            have later := ih t.length (by simp only [List.length_cons]; omega) t
              (fun d mem => plain d (by simp [mem])) rfl
            rw [unescape_digits hex two, ← later]
            exact unescape_digits hex two
        · have one : isHex (deref t) = false := Bool.eq_false_iff.mpr two
          have oneInText : isHex (deref (t ++ quote :: rest)) = false := by
            cases t with
            | nil => rfl
            | cons b t => exact one
          have later := ih t.length (by simp only [List.length_cons]; omega) t
            (fun d mem => plain d (by simp [mem])) rfl
          rw [unescape_digit hex one, ← later]
          exact unescape_digit hex oneInText
      · have other : ∀ a t, c = 92 → s = 120 :: a :: t → isHex a = false := fun a t eq eq' =>
          Bool.eq_false_iff.mpr fun hex => escape ⟨a, t, eq, eq', hex⟩
        have later := ih s.length (by simp only [List.length_cons]; omega) s
          (fun d mem => plain d (List.mem_cons_of_mem c mem)) rfl
        rw [unescape_other inside other, ← later]
        exact unescape_other inside (noEscape_append rest other)

end RiscvLinux.Config
