import RiscvLinux.Config.Strings

/-!
# Lookup in the config text

`find_key` and its two clients `config_string_u64` and `config_string_str`. The
recursion of `find_key` is two loops, one over the entries of a block and one
over the values of an entry, and the inner one both calls the function again and
may return from it. They are two functions here, structural in a fuel argument;
`findKey` supplies fuel enough for the text that is left, and `none` is running
out of it.
-/

namespace RiscvLinux.Config

/-- `strlen` -/
def strlen : Cursor → Nat
  | [] => 0
  | c :: s => if c = 0 then 0 else strlen s + 1

/-- `strncmp(a, b, n) == 0` -/
def strncmpEq : Cursor → Cursor → Nat → Bool
  | _, _, 0 => true
  | a, b, n + 1 =>
    if deref a ≠ deref b then false
    else if deref a = 0 then true
    else strncmpEq (inc a) (inc b) n

/-- How the loop over the values of an entry is left: by a `return` of the
function, or past its last value. -/
inductive ValueExit where
  | returned (str : Cursor)
  | fellOut (str : Cursor)
  deriving DecidableEq, Repr

/-- `substr_match`: the shorter of the name and the key is a prefix of the longer. -/
def substrMatch (name keyStart : Cursor) (keyLen : Nat) : Bool :=
  strncmpEq name keyStart (if keyLen < strlen name then keyLen else strlen name)

/-- `full_match`: the key is the whole name. -/
def fullMatch (name keyStart : Cursor) (keyLen : Nat) : Bool :=
  substrMatch name keyStart keyLen && keyLen == strlen name

/-- `prefix_match`: key+"." is a prefix of the name. -/
def prefixMatch (name keyStart : Cursor) (keyLen : Nat) : Bool :=
  substrMatch name keyStart keyLen &&
    (decide (keyLen < strlen name) && deref (name.drop keyLen) == dot)

mutual

/-- The loop of `find_key` over the entries of a block. -/
def findKeyEntries : Nat → Cursor → Cursor → Bool → Cursor → Option Cursor
  | 0, _, _, _, _ => none
  | fuel + 1, stop, name, take, start =>
    if stop.length < start.length ∧ deref start ≠ closeBrace then
      let keyEnd := skipKey start
      let keyLen := start.length - keyEnd.length
      match findKeyValues fuel stop (name.drop (keyLen + 1)) (take && fullMatch name start keyLen)
          (take && prefixMatch name start keyLen) (skipWhitespace keyEnd) with
      | none => none
      | some (.returned str) => some str
      | some (.fellOut str) =>
        findKeyEntries fuel stop name take (skipWhitespace (skipChar semicolon str))
    else some start

/-- The loop of `find_key` over the values of one entry: `rest` is
`name+key_len+1`, `full` is `take && full_match` and `pre` is
`take && prefix_match`. -/
def findKeyValues : Nat → Cursor → Cursor → Bool → Bool → Cursor → Option ValueExit
  | 0, _, _, _, _, _ => none
  | fuel + 1, stop, rest, full, pre, start =>
    if stop.length < start.length ∧ deref start ≠ semicolon then
      if deref start = quote then
        if full then some (.returned start)
        else findKeyValues fuel stop rest full pre (skipWhitespace (skipString (inc start)))
      else if deref start = openBrace then
        if pre then
          (findKeyEntries fuel stop rest true (skipWhitespace (inc start))).map .returned
        else
          match findKeyEntries fuel stop [] false (skipWhitespace (inc start)) with
          | none => none
          | some str =>
            findKeyValues fuel stop rest full pre (skipWhitespace (skipChar closeBrace str))
      else
        if full then some (.returned start)
        else findKeyValues fuel stop rest full pre (skipWhitespace (skipKey (inc start)))
    else some (.fellOut start)

end

/-- `find_key(start, end, name, take)` -/
def findKey (start stop name : Cursor) (take : Bool) : Option Cursor :=
  findKeyEntries (3 * start.length + 3) stop name take (skipWhitespace start)

/-! ## `config_string_u64` and `config_string_str` -/

/-- The lines that the two clients report with `dev_err`. -/
inductive ConfigError where
  /-- `Could not find u64 config string value for '%s'` -/
  | couldNotFindU64
  /-- `Could not parse u64 config string value '%*pE' for '%s'` -/
  | couldNotParseU64
  /-- `Could not find config string value for '%s'` -/
  | couldNotFind
  deriving DecidableEq, Repr

/-- `pdev->archdata`: the part of the config text that belongs to a device,
either pointer `NULL` for a device without one. -/
structure Archdata where
  configStart : Option Cursor
  configEnd : Option Cursor

/-- `config_string_u64`: the result, and the error reported if any. The outer
`none` is running out of fuel. -/
def configStringU64 (pdev : Archdata) (key : Cursor) : Option (UInt64 × Option ConfigError) :=
  match pdev.configStart, pdev.configEnd with
  | some start, some stop =>
    (findKey start stop key true).map fun value =>
      if value.length ≤ stop.length then (0, some .couldNotFindU64)
      else
        let tail := skipKey value
        let (rest, result) := parseU64 value
        if tail.length ≠ rest.length then (0, some .couldNotParseU64) else (result, none)
  | _, _ => some (0, none)

/-- `config_string_str`: the returned length, the bytes stored at `dest`, and the
error reported if any. -/
def configStringStr (pdev : Archdata) (key : Cursor) (maxlen : Nat) :
    Option (Nat × Bytes × Option ConfigError) :=
  let emptyOut : Bytes := if maxlen ≠ 0 then [0] else []
  match pdev.configStart, pdev.configEnd with
  | some start, some stop =>
    (findKey start stop key true).map fun value =>
      if value.length ≤ stop.length then (0, emptyOut, some .couldNotFind)
      else
        let (out, stored) := parseString value maxlen
        (out, stored, none)
  | _, _ => some (0, emptyOut, none)

end RiscvLinux.Config
