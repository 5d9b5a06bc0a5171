import RiscvLinux.Config.Document
import RiscvLinux.Config.Search
import Mathlib.Data.List.Pairwise

/-!
# Lookup in a well-formed text

A name is looked up by its path: the keys from the top to an entry, joined by `.`.
`find_key` commits to the first block whose key and `.` start the name, and
returns whatever the lookup in that block returns. So it finds a value exactly
when every block that could hold the name, up to that value, does hold it, and
it reports a missing name exactly when no block could hold the name at all.
-/

namespace RiscvLinux.Config

/-! ## Matching a key -/

/-- Over bytes that are not NUL, `strncmp` compares the first bytes. -/
theorem strncmpEq_iff {first second : Cursor} {len : Nat} (nulFree : 0 ∉ first.take len)
    (firstLong : len ≤ first.length) (secondLong : len ≤ second.length) :
    strncmpEq first second len = true ↔ first.take len = second.take len := by
  induction len generalizing first second with
  | zero => simp [strncmpEq]
  | succ len ih =>
    cases first with
    | nil => simp at firstLong
    | cons c s =>
      cases second with
      | nil => simp at secondLong
      | cons d t =>
        rw [List.take_succ_cons, List.mem_cons, not_or] at nulFree
        simp only [List.length_cons, Nat.add_le_add_iff_right] at firstLong secondLong
        simp only [strncmpEq, deref_cons, inc_cons, List.take_succ_cons, List.cons.injEq]
        by_cases same : c = d
        · subst same
          simp [Ne.symm nulFree.1, ih nulFree.2 firstLong secondLong]
        · simp [same]

section Match

variable {name : Bytes} (key junk after : Bytes)

/-- `substr_match` says that the shorter of the name and the key starts the longer. -/
theorem substrMatch_iff (nulFree : 0 ∉ name) :
    substrMatch (name ++ 0 :: junk) (key ++ after) key.length = true ↔
      key <+: name ∨ name <+: key := by
  have mem : ∀ len, 0 ∉ name.take len := fun len mem => nulFree (List.mem_of_mem_take mem)
  unfold substrMatch
  rw [strlen_append nulFree]
  split
  · next shorter =>
    have cut : (name ++ 0 :: junk).take key.length = name.take key.length :=
      List.take_append_of_le_length shorter.le
    rw [strncmpEq_iff (by rw [cut]; exact mem _) (by simp; omega) (by simp), cut,
      List.take_left, eq_comm, ← List.prefix_iff_eq_take]
    refine ⟨Or.inl, fun either => either.elim id fun longer => ?_⟩
    exact absurd longer.length_le (by omega)
  · next longer =>
    have cut : (key ++ after).take name.length = key.take name.length :=
      List.take_append_of_le_length (by omega)
    rw [strncmpEq_iff (by rw [List.take_left]; exact nulFree) (by simp) (by simp; omega), cut,
      List.take_left, ← List.prefix_iff_eq_take]
    refine ⟨Or.inr, fun either => either.elim (fun shorter => ?_) id⟩
    have same : key = name := shorter.eq_of_length_le (by omega)
    exact same ▸ List.prefix_rfl

/-- `full_match` says that the key is the name. -/
theorem fullMatch_iff (nulFree : 0 ∉ name) :
    fullMatch (name ++ 0 :: junk) (key ++ after) key.length = true ↔ key = name := by
  rw [fullMatch, Bool.and_eq_true, substrMatch_iff key junk after nulFree,
    strlen_append nulFree, beq_iff_eq]
  constructor
  · intro given
    rcases given with ⟨shorter | longer, same⟩
    · exact shorter.eq_of_length same
    · exact (longer.eq_of_length same.symm).symm
  · intro same
    subst same
    exact ⟨Or.inl List.prefix_rfl, rfl⟩

/-- `prefix_match` says that the key and a `.` start the name. -/
theorem prefixMatch_iff (nulFree : 0 ∉ name) :
    prefixMatch (name ++ 0 :: junk) (key ++ after) key.length = true ↔ key ++ [dot] <+: name := by
  rw [prefixMatch, Bool.and_eq_true, Bool.and_eq_true, substrMatch_iff key junk after nulFree,
    strlen_append nulFree, decide_eq_true_eq, beq_iff_eq]
  constructor
  · intro given
    rcases given with ⟨shorter | longer, less, atDot⟩
    · rcases shorter with ⟨rest, rfl⟩
      cases rest with
      | nil => simp at less
      | cons c s =>
        rw [List.append_assoc, List.drop_left, List.cons_append, deref_cons] at atDot
        exact ⟨s, by simp [atDot]⟩
    · exact absurd longer.length_le (by omega)
  · intro given
    rcases given with ⟨rest, rfl⟩
    refine ⟨Or.inl ⟨dot :: rest, by simp⟩, by simp, ?_⟩
    rw [List.append_assoc, List.append_assoc, List.drop_left]
    rfl

end Match

/-! ## Paths -/

/-- A value of a block at the level of its entry. -/
inductive Item where
  | leaf (key : Bytes) (pos : Cursor)
  | block (key : Bytes) (pos : Cursor) (body : Doc) (close : Cursor)

/-- The values of a block, in order. -/
def Vals.items (key : Bytes) : Vals → Bytes → List Item
  | .nil, _ => []
  | .string body after rest, tail =>
    .leaf key (Vals.print (.string body after rest) tail) :: rest.items key tail
  | .block lead body after rest, tail =>
    .block key (Vals.print (.block lead body after rest) tail) body
      (closeBrace :: (after.bytes ++ rest.print tail)) :: rest.items key tail
  | .token word after rest, tail =>
    .leaf key (Vals.print (.token word after rest) tail) :: rest.items key tail

def Doc.items : Doc → Bytes → List Item
  | .nil, _ => []
  | .entry key _ values after rest, tail =>
    values.items key.bytes (semicolon :: (after.bytes ++ rest.print tail)) ++ rest.items tail

/-- The path of a value in a block with the key `key`. -/
def below (key : Bytes) (path : Bytes) : Bytes := key ++ dot :: path

mutual

/-- The path and the position of every string and token, in document order. -/
def Doc.leaves : Doc → Bytes → List (Bytes × Cursor)
  | .nil, _ => []
  | .entry key _ values after rest, tail =>
    values.leaves key.bytes (semicolon :: (after.bytes ++ rest.print tail)) ++ rest.leaves tail

def Vals.leaves (key : Bytes) : Vals → Bytes → List (Bytes × Cursor)
  | .nil, _ => []
  | .string body after rest, tail =>
    (key, Vals.print (.string body after rest) tail) :: rest.leaves key tail
  | .block _ body after rest, tail =>
    (body.leaves (closeBrace :: (after.bytes ++ rest.print tail))).map (Prod.map (below key) id) ++
      rest.leaves key tail
  | .token word after rest, tail =>
    (key, Vals.print (.token word after rest) tail) :: rest.leaves key tail

end

/-- A block of a text: its path, where it opens and where it closes. -/
structure BlockAt where
  path : Bytes
  pos : Cursor
  close : Cursor

/-- The block as a part of a block with the key `key`. -/
def BlockAt.under (key : Bytes) (block : BlockAt) : BlockAt :=
  { block with path := below key block.path }

mutual

/-- Every block at any depth, in the order in which they open. -/
def Doc.blocks : Doc → Bytes → List BlockAt
  | .nil, _ => []
  | .entry key _ values after rest, tail =>
    values.blocks key.bytes (semicolon :: (after.bytes ++ rest.print tail)) ++ rest.blocks tail

def Vals.blocks (key : Bytes) : Vals → Bytes → List BlockAt
  | .nil, _ => []
  | .string _ _ rest, tail => rest.blocks key tail
  | .block lead body after rest, tail =>
    ⟨key, Vals.print (.block lead body after rest) tail,
      closeBrace :: (after.bytes ++ rest.print tail)⟩ ::
      ((body.blocks (closeBrace :: (after.bytes ++ rest.print tail))).map (.under key) ++
        rest.blocks key tail)
  | .token _ _ rest, tail => rest.blocks key tail

end

/-! ## `find_key` takes the first item that could hold the name -/

/-- `find_key` commits to the item: a value whose key is the name, or a block whose
key and `.` start it. -/
def Item.takes (name : Bytes) : Item → Bool
  | .leaf key _ => key == name
  | .block key _ _ _ => (key ++ [dot]).isPrefixOf name

/-- What `find_key` returns from an item that it commits to. -/
def Item.enter (name junk : Bytes) : Item → Cursor
  | .leaf _ pos => pos
  | .block key _ body close =>
    (body.outline close).find (name.drop (key.length + 1) ++ 0 :: junk) true

theorem Item.takes_leaf {name key : Bytes} {pos : Cursor} :
    (Item.leaf key pos).takes name = true ↔ key = name := beq_iff_eq

theorem Item.takes_block {name key : Bytes} (pos close : Cursor) (body : Doc) :
    (Item.block key pos body close).takes name = true ↔ key ++ [dot] <+: name :=
  List.isPrefixOf_iff_prefix

section Find

variable {name : Bytes} (junk : Bytes)

/-- The values of an entry, with the flags that `find_key` computes for its key. -/
theorem Vals.find_outline {key : Bytes} (tail : Bytes) {full pre : Bool}
    (isFull : full = true ↔ key = name) (isPre : pre = true ↔ key ++ [dot] <+: name) :
    ∀ values : Vals,
    (values.outline tail).find ((name ++ 0 :: junk).drop (key.length + 1)) full pre =
      match (values.items key tail).find? (Item.takes name) with
      | some item => .returned (item.enter name junk)
      | none => .fellOut tail
  | .nil => rfl
  | .string body after rest => by
    have ih := Vals.find_outline tail isFull isPre rest
    cases full with
    | true => simp [Vals.outline, Values.find, Vals.items, Item.takes, Item.enter, isFull.mp rfl]
    | false =>
      have other : key ≠ name := fun eq => Bool.noConfusion (isFull.mpr eq)
      simpa [Vals.outline, Values.find, Vals.items, Item.takes, other] using ih
  | .token word after rest => by
    have ih := Vals.find_outline tail isFull isPre rest
    cases full with
    | true => simp [Vals.outline, Values.find, Vals.items, Item.takes, Item.enter, isFull.mp rfl]
    | false =>
      have other : key ≠ name := fun eq => Bool.noConfusion (isFull.mpr eq)
      simpa [Vals.outline, Values.find, Vals.items, Item.takes, other] using ih
  | .block lead body after rest => by
    have ih := Vals.find_outline tail isFull isPre rest
    cases pre with
    | true =>
      have starts := isPre.mp rfl
      have cut : (name ++ 0 :: junk).drop (key.length + 1) =
          name.drop (key.length + 1) ++ 0 :: junk :=
        List.drop_append_of_le_length (by simpa using starts.length_le)
      have taken := (Item.takes_block ((Vals.block lead body after rest).print tail)
        (closeBrace :: (after.bytes ++ rest.print tail)) body).mpr starts
      simp only [Vals.outline, Values.find, Vals.items, if_true, List.find?_cons, taken, cut,
        Item.enter]
    | false =>
      have other : ¬ key ++ [dot] <+: name := fun starts => Bool.noConfusion (isPre.mpr starts)
      have skipped : (Item.block key ((Vals.block lead body after rest).print tail) body
          (closeBrace :: (after.bytes ++ rest.print tail))).takes name = false := by
        rw [Bool.eq_false_iff]
        exact fun taken => other ((Item.takes_block _ _ _).mp taken)
      simpa [Vals.outline, Values.find, Vals.items, skipped] using ih

/-- `find_key` over a document returns from the first item it commits to. -/
theorem Doc.find_outline (nulFree : 0 ∉ name) (tail : Bytes) : ∀ doc : Doc, doc.WellFormed →
    (doc.outline tail).find (name ++ 0 :: junk) true =
      match (doc.items tail).find? (Item.takes name) with
      | some item => item.enter name junk
      | none => skipWhitespace tail
  | .nil, _ => rfl
  | .entry key gap values after rest, wellFormed => by
    have keyLen : ((Doc.entry key gap values after rest).print tail).length -
        (skipKey ((Doc.entry key gap values after rest).print tail)).length = key.bytes.length := by
      rw [Doc.skipKey_print tail wellFormed.2.1]
      simp [Doc.print]
    have full := fullMatch_iff key.bytes junk
      (gap.bytes ++ values.print (semicolon :: (after.bytes ++ rest.print tail))) nulFree
    have pre := prefixMatch_iff key.bytes junk
      (gap.bytes ++ values.print (semicolon :: (after.bytes ++ rest.print tail))) nulFree
    have inValues := values.find_outline junk (semicolon :: (after.bytes ++ rest.print tail))
      full pre
    have inRest := Doc.find_outline nulFree tail rest wellFormed.2.2.2
    simp only [Doc.outline, Entries.find, keyLen, Bool.true_and, Doc.items, List.find?_append]
    rw [Doc.print, inValues]
    cases (values.items key.bytes (semicolon :: (after.bytes ++ rest.print tail))).find?
        (Item.takes name) with
    | some item => rfl
    | none => simpa using inRest

end Find

/-! ## Items, leaves and blocks -/

/-- The values at or below an item. -/
def Item.leaves : Item → List (Bytes × Cursor)
  | .leaf key pos => [(key, pos)]
  | .block key _ body close => (body.leaves close).map (Prod.map (below key) id)

/-- The blocks at or below an item. -/
def Item.blocks : Item → List BlockAt
  | .leaf _ _ => []
  | .block key pos body close => ⟨key, pos, close⟩ :: (body.blocks close).map (.under key)

theorem Vals.leaves_eq : ∀ (values : Vals) (key tail : Bytes),
    values.leaves key tail = (values.items key tail).flatMap Item.leaves
  | .nil, _, _ => rfl
  | .string _ _ rest, key, tail => by
    simp [Vals.leaves, Vals.items, Item.leaves, rest.leaves_eq key tail]
  | .block _ _ _ rest, key, tail => by
    simp [Vals.leaves, Vals.items, Item.leaves, rest.leaves_eq key tail]
  | .token _ _ rest, key, tail => by
    simp [Vals.leaves, Vals.items, Item.leaves, rest.leaves_eq key tail]

theorem Doc.leaves_eq : ∀ (doc : Doc) (tail : Bytes),
    doc.leaves tail = (doc.items tail).flatMap Item.leaves
  | .nil, _ => rfl
  | .entry key _ values after rest, tail => by
    rw [Doc.leaves, Doc.items, List.flatMap_append, values.leaves_eq, rest.leaves_eq tail]

theorem Vals.blocks_eq : ∀ (values : Vals) (key tail : Bytes),
    values.blocks key tail = (values.items key tail).flatMap Item.blocks
  | .nil, _, _ => rfl
  | .string _ _ rest, key, tail => by
    simp [Vals.blocks, Vals.items, Item.blocks, rest.blocks_eq key tail]
  | .block _ _ _ rest, key, tail => by
    simp [Vals.blocks, Vals.items, Item.blocks, rest.blocks_eq key tail]
  | .token _ _ rest, key, tail => by
    simp [Vals.blocks, Vals.items, Item.blocks, rest.blocks_eq key tail]

theorem Doc.blocks_eq : ∀ (doc : Doc) (tail : Bytes),
    doc.blocks tail = (doc.items tail).flatMap Item.blocks
  | .nil, _ => rfl
  | .entry key _ values after rest, tail => by
    rw [Doc.blocks, Doc.items, List.flatMap_append, values.blocks_eq, rest.blocks_eq tail]

/-! ### Where they are -/

/-- Where the item starts. -/
def Item.pos : Item → Cursor
  | .leaf _ pos => pos
  | .block _ pos _ _ => pos

/-- The last place that the item could hold a value before. -/
def Item.last : Item → Cursor
  | .leaf _ pos => pos
  | .block _ _ _ close => close

/-- The item lies between two places, and a block lies between its braces. -/
def Item.Fits (bottom top : Nat) (item : Item) : Prop :=
  bottom < item.last.length ∧ item.pos.length ≤ top ∧
    match item with
    | .leaf _ _ => True
    | .block _ pos body close =>
      (body.print close).length < pos.length ∧ body.WellFormed ∧ deref close = closeBrace

theorem Item.Fits.mono {bottom bottom' top top' : Nat} {item : Item} (fits : item.Fits bottom top)
    (lower : bottom' ≤ bottom) (higher : top ≤ top') : item.Fits bottom' top' :=
  ⟨lt_of_le_of_lt lower fits.1, fits.2.1.trans higher, fits.2.2⟩

/-- Items stand in the order of the text. -/
def Ordered (items : List Item) : Prop :=
  items.Pairwise fun first second => second.pos.length < first.last.length

theorem Vals.items_fit (key tail : Bytes) : ∀ values : Vals, values.WellFormed →
    (∀ item ∈ values.items key tail, item.Fits tail.length (values.print tail).length) ∧
      Ordered (values.items key tail)
  | .nil, _ => ⟨nofun, .nil⟩
  | .string body after rest, wellFormed => by
    obtain ⟨fits, ordered⟩ := rest.items_fit key tail wellFormed
    have tail_le := (rest.suffix_print tail).length_le
    have rest_lt : (rest.print tail).length <
        ((Vals.string body after rest).print tail).length := by
      simp only [Vals.print, List.length_cons, List.length_append]
      omega
    refine ⟨fun item mem => ?_, .cons (fun item mem => ?_) ordered⟩
    · rcases List.mem_cons.mp mem with rfl | mem
      · exact ⟨lt_of_le_of_lt tail_le rest_lt, le_rfl, trivial⟩
      · exact (fits item mem).mono le_rfl rest_lt.le
    · exact lt_of_le_of_lt (fits item mem).2.1 rest_lt
  | .token word after rest, wellFormed => by
    obtain ⟨fits, ordered⟩ := rest.items_fit key tail wellFormed.2
    have tail_le := (rest.suffix_print tail).length_le
    have rest_lt : (rest.print tail).length <
        ((Vals.token word after rest).print tail).length := by
      have := List.length_pos_iff.mpr word.nonempty
      simp only [Vals.print, List.length_append]
      omega
    refine ⟨fun item mem => ?_, .cons (fun item mem => ?_) ordered⟩
    · rcases List.mem_cons.mp mem with rfl | mem
      · exact ⟨lt_of_le_of_lt tail_le rest_lt, le_rfl, trivial⟩
      · exact (fits item mem).mono le_rfl rest_lt.le
    · exact lt_of_le_of_lt (fits item mem).2.1 rest_lt
  | .block lead body after rest, wellFormed => by
    obtain ⟨fits, ordered⟩ := rest.items_fit key tail wellFormed.2
    have tail_le := (rest.suffix_print tail).length_le
    have body_le := (body.suffix_print (closeBrace :: (after.bytes ++ rest.print tail))).length_le
    have close_lt : (rest.print tail).length <
        (closeBrace :: (after.bytes ++ rest.print tail)).length := by
      simp only [List.length_cons, List.length_append]
      omega
    have rest_lt : (body.print (closeBrace :: (after.bytes ++ rest.print tail))).length <
        ((Vals.block lead body after rest).print tail).length := by
      simp only [Vals.print, List.length_cons, List.length_append]
      omega
    refine ⟨fun item mem => ?_, .cons (fun item mem => ?_) ordered⟩
    · rcases List.mem_cons.mp mem with rfl | mem
      · exact ⟨lt_of_le_of_lt tail_le close_lt, le_rfl, rest_lt, wellFormed.1, rfl⟩
      · exact (fits item mem).mono le_rfl (by omega)
    · exact lt_of_le_of_lt (fits item mem).2.1 close_lt

theorem Doc.items_fit (tail : Bytes) : ∀ doc : Doc, doc.WellFormed →
    (∀ item ∈ doc.items tail, item.Fits tail.length (doc.print tail).length) ∧
      Ordered (doc.items tail)
  | .nil, _ => ⟨nofun, .nil⟩
  | .entry key gap values after rest, wellFormed => by
    obtain ⟨valuesFit, valuesOrdered⟩ := values.items_fit key.bytes
      (semicolon :: (after.bytes ++ rest.print tail)) wellFormed.2.2.1
    obtain ⟨restFit, restOrdered⟩ := Doc.items_fit tail rest wellFormed.2.2.2
    have tail_le := (rest.suffix_print tail).length_le
    have shorter := Doc.length_lt_print key gap values after rest tail
    have between : (rest.print tail).length <
        (semicolon :: (after.bytes ++ rest.print tail)).length := by
      simp only [List.length_cons, List.length_append]
      omega
    have whole : (values.print (semicolon :: (after.bytes ++ rest.print tail))).length ≤
        ((Doc.entry key gap values after rest).print tail).length := by
      simp only [Doc.print, List.length_append]
      omega
    refine ⟨fun item mem => ?_, List.pairwise_append.mpr ⟨valuesOrdered, restOrdered, ?_⟩⟩
    · rcases List.mem_append.mp mem with mem | mem
      · exact (valuesFit item mem).mono (by omega) whole
      · exact (restFit item mem).mono le_rfl shorter.le
    · intro first memFirst second memSecond
      have high := (valuesFit first memFirst).1
      have low := (restFit second memSecond).2.1
      omega

/-- What an item holds lies inside it, and a value of a block is before its `}`. -/
theorem Item.holds_within {bottom top : Nat} (item : Item) (fits : item.Fits bottom top) :
    (∀ leaf ∈ item.leaves, item.last.length ≤ leaf.2.length ∧
      leaf.2.length ≤ item.pos.length) ∧
    ∀ block ∈ item.blocks, item.last.length ≤ block.close.length ∧
      block.pos.length ≤ item.pos.length := by
  induction size : item.pos.length using Nat.strong_induction_on generalizing item bottom top with
  | _ size ih =>
    subst size
    cases item with
    | leaf key pos =>
      refine ⟨fun leaf mem => ?_, nofun⟩
      rw [List.mem_singleton.mp mem]
      exact ⟨le_rfl, le_rfl⟩
    | block key pos body close =>
      rcases fits with ⟨-, -, shorter, wellFormed, -⟩
      have inBody := (body.items_fit close wellFormed).1
      have inner := fun item mem => ih item.pos.length
        (lt_of_le_of_lt (inBody item mem).2.1 shorter) item (inBody item mem) rfl
      refine ⟨fun leaf mem => ?_, fun block mem => ?_⟩
      · obtain ⟨inside, memBody, rfl⟩ := List.mem_map.mp mem
        rw [Doc.leaves_eq] at memBody
        obtain ⟨item, memItem, held⟩ := List.mem_flatMap.mp memBody
        obtain ⟨low, high⟩ := (inner item memItem).1 inside held
        obtain ⟨bottom_lt, le_top, -⟩ := inBody item memItem
        simp only [Item.last, Item.pos, Prod.map_snd, id]
        omega
      · rcases List.mem_cons.mp mem with rfl | mem
        · exact ⟨le_rfl, le_rfl⟩
        · obtain ⟨inside, memBody, rfl⟩ := List.mem_map.mp mem
          rw [Doc.blocks_eq] at memBody
          obtain ⟨item, memItem, held⟩ := List.mem_flatMap.mp memBody
          obtain ⟨low, high⟩ := (inner item memItem).2 inside held
          obtain ⟨bottom_lt, le_top, -⟩ := inBody item memItem
          simp only [Item.last, Item.pos, BlockAt.under]
          omega

/-- A value inside a block is before its `}`. -/
theorem Doc.leaves_before_close {body : Doc} {close : Cursor} (wellFormed : body.WellFormed)
    {leaf : Bytes × Cursor} (mem : leaf ∈ body.leaves close) : close.length < leaf.2.length := by
  rw [Doc.leaves_eq] at mem
  obtain ⟨item, memItem, mem⟩ := List.mem_flatMap.mp mem
  have fits := (body.items_fit close wellFormed).1 item memItem
  exact lt_of_lt_of_le fits.1 ((item.holds_within fits).1 leaf mem).1

/-! ## Items that could hold a name -/

/-- A path in a block with a key starts a name if the key and the path do. -/
theorem starts_of_below {key path name : Bytes} (starts : below key path ++ [dot] <+: name) :
    key ++ [dot] <+: name := by
  refine List.IsPrefix.trans ⟨path ++ [dot], ?_⟩ starts
  simp [below]

/-- An item that holds the name is one that `find_key` commits to. -/
theorem Item.takes_of_leaf {name : Bytes} {item : Item} {leaf : Bytes × Cursor}
    (mem : leaf ∈ item.leaves) (path : leaf.1 = name) : item.takes name = true := by
  cases item with
  | leaf key pos =>
    rw [List.mem_singleton.mp mem] at path
    exact Item.takes_leaf.mpr path
  | block key pos body close =>
    obtain ⟨inner, -, rfl⟩ := List.mem_map.mp mem
    exact (Item.takes_block _ _ _).mpr ⟨inner.1, by rw [← path]; simp [below]⟩

/-- And so is an item with a block that could hold the name. -/
theorem Item.takes_of_block {name : Bytes} {item : Item} {block : BlockAt}
    (mem : block ∈ item.blocks) (starts : block.path ++ [dot] <+: name) :
    item.takes name = true := by
  cases item with
  | leaf key pos => cases mem
  | block key pos body close =>
    rcases List.mem_cons.mp mem with rfl | mem
    · exact (Item.takes_block _ _ _).mpr starts
    · obtain ⟨inner, -, rfl⟩ := List.mem_map.mp mem
      exact (Item.takes_block _ _ _).mpr (starts_of_below starts)

/-- A name that starts with a key and a `.` is a path below the key. -/
theorem exists_eq_below {key name : Bytes} (starts : key ++ [dot] <+: name) :
    ∃ path, name = below key path := by
  rcases starts with ⟨path, rfl⟩
  exact ⟨path, by simp [below]⟩

theorem drop_below (key path : Bytes) : (below key path).drop (key.length + 1) = path := by
  simp [below]

theorem length_lt_below (key path : Bytes) : path.length < (below key path).length := by
  simp only [below, List.length_append, List.length_cons]
  omega

theorem below_starts_iff {key path other : Bytes} :
    below key path ++ [dot] <+: below key other ↔ path ++ [dot] <+: other := by
  have eq : below key path ++ [dot] = (key ++ [dot]) ++ (path ++ [dot]) := by simp [below]
  have eq' : below key other = (key ++ [dot]) ++ other := by simp [below]
  rw [eq, eq', List.prefix_append_right_inj]

theorem below_inj {key path other : Bytes} : below key path = below key other ↔ path = other := by
  simp [below]

/-- A lookup in a block never returns a place after its `}`. -/
theorem Doc.length_le_find {name : Bytes} (junk : Bytes) (nulFree : 0 ∉ name) {doc : Doc}
    {tail : Bytes} (wellFormed : doc.WellFormed) (atStop : skipWhitespace tail = tail) :
    tail.length ≤ ((doc.outline tail).find (name ++ 0 :: junk) true).length := by
  induction size : name.length using Nat.strong_induction_on generalizing name doc tail with
  | _ size ih =>
    subst size
    rw [Doc.find_outline junk nulFree tail doc wellFormed]
    cases found : (doc.items tail).find? (Item.takes name) with
    | none => exact atStop.symm ▸ le_rfl
    | some item =>
      have fits := (doc.items_fit tail wellFormed).1 item (List.mem_of_find?_eq_some found)
      have takes := List.find?_some found
      cases item with
      | leaf key pos => exact fits.1.le
      | block key pos body close =>
        rcases fits with ⟨low, -, -, bodyFormed, atClose⟩
        obtain ⟨path, rfl⟩ := exists_eq_below ((Item.takes_block _ _ _).mp takes)
        have stops : skipWhitespace close = close := dropWhile_of_deref (by rw [atClose]; rfl)
        simp only [Item.enter, drop_below]
        exact low.le.trans (ih _ (length_lt_below key path)
          (fun mem => nulFree (List.mem_append_right _ (List.mem_cons_of_mem _ mem))) bodyFormed
          stops rfl)

/-! ## Where the lookup of a present name ends -/

/-- The first value of a document with a path, if there is one. -/
def Doc.first (doc : Doc) (tail name : Bytes) : Option Cursor :=
  ((doc.leaves tail).find? fun leaf => leaf.1 == name).map Prod.snd

/-- Every block that opens before the place and could hold the name contains the
place. -/
def Doc.LeadsTo (doc : Doc) (tail name : Bytes) (pos : Cursor) : Prop :=
  ∀ block ∈ doc.blocks tail, block.path ++ [dot] <+: name →
    pos.length < block.pos.length → block.close.length < pos.length

/-- A list of values splits at the item that `find_key` commits to, and those before
it do not hold the name. -/
theorem find?_leaves_split {name : Bytes} {before after : List Item} {item : Item}
    (skipped : ∀ other ∈ before, other.takes name = false) :
    (((before ++ item :: after).flatMap Item.leaves).find? fun leaf => leaf.1 == name) =
      (item.leaves.find? fun leaf => leaf.1 == name).or
        ((after.flatMap Item.leaves).find? fun leaf => leaf.1 == name) := by
  have none : ((before.flatMap Item.leaves).find? fun leaf => leaf.1 == name) = none := by
    refine List.find?_eq_none.mpr fun leaf mem path => ?_
    obtain ⟨other, memOther, held⟩ := List.mem_flatMap.mp mem
    have takes := Item.takes_of_leaf held (beq_iff_eq.mp path)
    rw [skipped other memOther] at takes
    cases takes
  rw [List.flatMap_append, List.flatMap_cons, List.find?_append, none, Option.none_or,
    List.find?_append]

/-- The first value in a block, seen from outside the block. -/
theorem find?_leaves_below (body : Doc) (close key path : Bytes) :
    (((body.leaves close).map (Prod.map (below key) id)).find? fun leaf =>
        leaf.1 == below key path) =
      ((body.leaves close).find? fun leaf => leaf.1 == path).map (Prod.map (below key) id) := by
  rw [List.find?_map]
  congr 2
  funext leaf
  rw [Bool.eq_iff_iff]
  simp [below_inj]

section Order

variable {doc : Doc} {tail name : Bytes} {before after : List Item} {item : Item}
variable (wellFormed : doc.WellFormed) (split : doc.items tail = before ++ item :: after)

include wellFormed split

/-- Every value and block after an item is past it. -/
theorem Doc.after_item :
    (∀ leaf ∈ after.flatMap Item.leaves, leaf.2.length < item.last.length) ∧
      ∀ block ∈ after.flatMap Item.blocks, block.pos.length < item.last.length := by
  obtain ⟨fits, ordered⟩ := doc.items_fit tail wellFormed
  rw [split] at fits ordered
  have later := (List.pairwise_cons.mp (List.pairwise_append.mp ordered).2.1).1
  have within := fun other memOther =>
    Item.holds_within other (fits other (List.mem_append_right _ (List.mem_cons_of_mem _ memOther)))
  refine ⟨fun leaf mem => ?_, fun block mem => ?_⟩
  · obtain ⟨other, memOther, held⟩ := List.mem_flatMap.mp mem
    exact lt_of_le_of_lt ((within other memOther).1 leaf held).2 (later other memOther)
  · obtain ⟨other, memOther, held⟩ := List.mem_flatMap.mp mem
    exact lt_of_le_of_lt ((within other memOther).2 block held).2 (later other memOther)

/-- Whether the blocks lead to a place at or in the item that `find_key` commits to
is decided by the blocks of that item. -/
theorem Doc.leadsTo_iff {pos : Cursor} (skipped : ∀ other ∈ before, other.takes name = false)
    (reached : item.last.length ≤ pos.length) :
    doc.LeadsTo tail name pos ↔ ∀ block ∈ item.blocks, block.path ++ [dot] <+: name →
      pos.length < block.pos.length → block.close.length < pos.length := by
  unfold Doc.LeadsTo
  rw [Doc.blocks_eq, split, List.flatMap_append, List.flatMap_cons]
  constructor
  · intro leads block mem
    exact leads block (List.mem_append_right _ (List.mem_append_left _ mem))
  · intro leads block mem starts opens
    rcases List.mem_append.mp mem with mem | mem
    · obtain ⟨other, memOther, held⟩ := List.mem_flatMap.mp mem
      have takes := Item.takes_of_block held starts
      rw [skipped other memOther] at takes
      cases takes
    · rcases List.mem_append.mp mem with mem | mem
      · exact leads block mem starts opens
      · have := (Doc.after_item wellFormed split).2 block mem
        omega

end Order

/-- The lookup of a name that a document holds returns its first value exactly when
the blocks before that value lead to it. -/
theorem Doc.find_eq_first_iff {name : Bytes} (junk : Bytes) (nulFree : 0 ∉ name) {doc : Doc}
    {tail : Bytes} (wellFormed : doc.WellFormed) {pos : Cursor}
    (first : doc.first tail name = some pos) :
    (doc.outline tail).find (name ++ 0 :: junk) true = pos ↔ doc.LeadsTo tail name pos := by
  induction size : name.length using Nat.strong_induction_on generalizing name doc tail pos with
  | _ size ih =>
    subst size
    obtain ⟨leaf, foundLeaf, atPos⟩ := Option.map_eq_some_iff.mp first
    rw [Doc.find_outline junk nulFree tail doc wellFormed]
    rw [Doc.leaves_eq] at foundLeaf
    cases found : (doc.items tail).find? (Item.takes name) with
    | none =>
      obtain ⟨item, memItem, held⟩ := List.mem_flatMap.mp (List.mem_of_find?_eq_some foundLeaf)
      have path : leaf.1 = name := by simpa using List.find?_some foundLeaf
      exact absurd (Item.takes_of_leaf held path) (List.find?_eq_none.mp found item memItem)
    | some item =>
      obtain ⟨takes, before, after, split, skips⟩ := List.find?_eq_some_iff_append.mp found
      have skipped : ∀ other ∈ before, other.takes name = false := fun other mem => by
        simpa using skips other mem
      have memItem : item ∈ doc.items tail := List.mem_of_find?_eq_some found
      have fits := (doc.items_fit tail wellFormed).1 item memItem
      rw [split, find?_leaves_split skipped] at foundLeaf
      cases item with
      | leaf key place =>
        have same : key = name := Item.takes_leaf.mp takes
        simp only [Item.leaves, List.find?_cons, same, beq_self_eq_true, Option.some_or,
          Option.some.injEq] at foundLeaf
        have here : pos = place := by rw [← atPos, ← foundLeaf]
        subst here
        rw [Doc.leadsTo_iff wellFormed split skipped (le_refl pos.length)]
        exact ⟨fun _ => nofun, fun _ => rfl⟩
      | block key place body close =>
        obtain ⟨path, rfl⟩ := exists_eq_below ((Item.takes_block _ _ _).mp takes)
        have bodyFormed := fits.2.2.2.1
        have pathFree : 0 ∉ path :=
          fun mem => nulFree (List.mem_append_right _ (List.mem_cons_of_mem _ mem))
        simp only [Item.enter, drop_below]
        simp only [Item.leaves, find?_leaves_below] at foundLeaf
        cases inBody : (body.leaves close).find? (fun leaf => leaf.1 == path) with
        | some inner =>
          -- the value is in the block, and the blocks there decide
          simp only [inBody, Option.map_some, Option.some_or, Option.some.injEq] at foundLeaf
          have here : inner.2 = pos := by
            rw [← atPos, ← foundLeaf]
            rfl
          have firstInner : body.first close path = some pos := by
            rw [Doc.first, inBody, ← here]
            rfl
          have inside := Doc.leaves_before_close bodyFormed (List.mem_of_find?_eq_some inBody)
          rw [here] at inside
          rw [Doc.leadsTo_iff wellFormed split skipped inside.le]
          refine (ih _ (length_lt_below key path) pathFree bodyFormed firstInner rfl).trans ?_
          constructor
          · intro leads block mem starts opens
            rcases List.mem_cons.mp mem with rfl | mem
            · exact inside
            · obtain ⟨held, memHeld, rfl⟩ := List.mem_map.mp mem
              exact leads held memHeld (below_starts_iff.mp starts) opens
          · intro leads block mem starts opens
            exact leads (block.under key)
              (List.mem_cons_of_mem _ (List.mem_map.mpr ⟨block, mem, rfl⟩))
              (below_starts_iff.mpr starts) opens
        | none =>
          -- the value is after the block, which the lookup never leaves
          simp only [inBody, Option.map_none, Option.none_or] at foundLeaf
          have past := (Doc.after_item wellFormed split).1 leaf
            (List.mem_of_find?_eq_some foundLeaf)
          rw [atPos] at past
          have stops : skipWhitespace close = close :=
            dropWhile_of_deref (by rw [fits.2.2.2.2]; rfl)
          have kept := Doc.length_le_find junk pathFree bodyFormed stops
          have bodyLong := (body.suffix_print close).length_le
          have opens := fits.2.2.1
          simp only [Item.last] at past
          constructor
          · intro eq
            rw [eq] at kept
            omega
          · intro leads
            have memBlock : ⟨key, place, close⟩ ∈ doc.blocks tail := by
              rw [Doc.blocks_eq]
              exact List.mem_flatMap.mpr ⟨_, memItem, List.mem_cons_self ..⟩
            have contains := leads _ memBlock ⟨path, by simp [below]⟩ (by simp only; omega)
            simp only at contains
            omega

/-! ## Lookups in a text -/

section Text

variable (lead : Blank) {doc : Doc} (rest : Bytes) {name : Bytes} (junk : Bytes)

/-- A lookup between the ends of a text is a search of its document, whatever memory
follows the text. -/
theorem findKey_text (wellFormed : doc.WellFormed) :
    findKey (lead.bytes ++ doc.print rest) rest (name ++ 0 :: junk) true =
      some ((doc.outline rest).find (name ++ 0 :: junk) true) := by
  refine findKey_eq ?_
  rw [lead.skipWhitespace_append]
  refine doc.readsAt (runsTo_beforeEnd rest) wellFormed le_rfl fun running => ?_
  have past := (skipWhitespace_suffix rest).length_le
  have before := of_decide_eq_true running.1
  omega

/-- The lookup of a name that a text holds returns the first value with that name
exactly when every block that opens before that value, and whose path and `.` start
the name, contains it. -/
theorem findKey_first_iff (wellFormed : doc.WellFormed) (nulFree : 0 ∉ name) {pos : Cursor}
    (first : doc.first rest name = some pos) :
    findKey (lead.bytes ++ doc.print rest) rest (name ++ 0 :: junk) true = some pos ↔
      doc.LeadsTo rest name pos := by
  rw [findKey_text lead rest junk wellFormed, Option.some.injEq]
  exact Doc.find_eq_first_iff junk nulFree wellFormed first

end Text

/-- Two blocks with one key, the second of which holds `a.c`: `a{b 1;};a{c 2;};`. -/
def twoBlocks : Doc :=
  .entry ⟨[97], isKeyChar_a⟩ ⟨[], isSpace_nil⟩
    (.block ⟨[], isSpace_nil⟩
      (.entry ⟨[98], isKeyChar_b⟩ ⟨[32], isSpace_space⟩
        (.token ⟨[49], isKeyChar_one, one_ne_nil⟩ ⟨[], isSpace_nil⟩ .nil) ⟨[], isSpace_nil⟩ .nil)
      ⟨[], isSpace_nil⟩ .nil) ⟨[], isSpace_nil⟩
    (.entry ⟨[97], isKeyChar_a⟩ ⟨[], isSpace_nil⟩
      (.block ⟨[], isSpace_nil⟩
        (.entry ⟨[99], isKeyChar_c⟩ ⟨[32], isSpace_space⟩
          (.token ⟨[50], isKeyChar_two, two_ne_nil⟩ ⟨[], isSpace_nil⟩ .nil) ⟨[], isSpace_nil⟩ .nil)
        ⟨[], isSpace_nil⟩ .nil) ⟨[], isSpace_nil⟩ .nil)

theorem twoBlocks_wellFormed : twoBlocks.WellFormed := by
  simp [twoBlocks, Doc.WellFormed, Vals.WellFormed, Vals.StartsWithToken]

/-- The first block leads to `a.b`. -/
theorem findKey_first_iff_twoBlocks :
    findKey (twoBlocks.print []) [] [97, dot, 98, 0] true = some [49, 59, 125, 59, 97, 123, 99, 32,
        50, 59, 125, 59] ↔
      twoBlocks.LeadsTo [] [97, dot, 98] [49, 59, 125, 59, 97, 123, 99, 32, 50, 59, 125, 59] :=
  findKey_first_iff ⟨[], nofun⟩ [] [] twoBlocks_wellFormed
    (show 0 ∉ ([97, dot, 98] : Bytes) by decide) rfl

/-- The first block hides `a.c`, which is in the second: the lookup stops at the `}`
of the first. -/
theorem findKey_hidden :
    twoBlocks.WellFormed ∧ twoBlocks.first [] [97, dot, 99] = some [50, 59, 125, 59] ∧
      findKey (twoBlocks.print []) [] [97, dot, 99, 0] true ≠ some [50, 59, 125, 59] :=
  ⟨twoBlocks_wellFormed, rfl, by decide⟩

/-! ## A name that a text does not hold -/

/-- The outcome for a name that is not there: `find_key` ends at or past the end, and
its clients report the name and return nothing. -/
structure NotFound (start stop name : Cursor) : Prop where
  find : ∃ pos, findKey start stop name true = some pos ∧ pos.length ≤ stop.length
  u64 : configStringU64 ⟨some start, some stop⟩ name = some (0, some .couldNotFindU64)
  str : ∀ maxlen, configStringStr ⟨some start, some stop⟩ name maxlen =
    some (0, if maxlen ≠ 0 then [0] else [], some .couldNotFind)

/-- The clients take their error paths when `find_key` ends at or past the end. -/
theorem NotFound.of_findKey {start stop name pos : Cursor}
    (find : findKey start stop name true = some pos) (past : pos.length ≤ stop.length) :
    NotFound start stop name where
  find := ⟨pos, find, past⟩
  u64 := by
    simp only [configStringU64, find, Option.map_some, if_pos past]
  str maxlen := by
    simp only [configStringStr, find, Option.map_some, if_pos past]

/-- The lookup of a name that a text does not hold is reported as such exactly when
the text has no block whose path and `.` start the name. -/
theorem notFound_iff (lead : Blank) {doc : Doc} (rest : Bytes) {name : Bytes} (junk : Bytes)
    (wellFormed : doc.WellFormed) (nulFree : 0 ∉ name)
    (missing : ∀ leaf ∈ doc.leaves rest, leaf.1 ≠ name) :
    NotFound (lead.bytes ++ doc.print rest) rest (name ++ 0 :: junk) ↔
      ∀ block ∈ doc.blocks rest, ¬ block.path ++ [dot] <+: name := by
  have find : findKey (lead.bytes ++ doc.print rest) rest (name ++ 0 :: junk) true = _ :=
    findKey_text lead rest junk wellFormed
  rw [Doc.find_outline junk nulFree rest doc wellFormed] at find
  have noLeaf : ∀ item ∈ doc.items rest, ∀ leaf ∈ item.leaves, leaf.1 ≠ name :=
    fun item memItem leaf mem => missing leaf (by
      rw [Doc.leaves_eq]
      exact List.mem_flatMap.mpr ⟨item, memItem, mem⟩)
  cases found : (doc.items rest).find? (Item.takes name) with
  | none =>
    rw [found] at find
    refine ⟨fun _ block mem starts => ?_, fun _ => .of_findKey find ?_⟩
    · rw [Doc.blocks_eq] at mem
      obtain ⟨item, memItem, held⟩ := List.mem_flatMap.mp mem
      exact List.find?_eq_none.mp found item memItem (Item.takes_of_block held starts)
    · exact (skipWhitespace_suffix rest).length_le
  | some item =>
    have memItem := List.mem_of_find?_eq_some found
    have takes := List.find?_some found
    have fits := (doc.items_fit rest wellFormed).1 item memItem
    rw [found] at find
    cases item with
    | leaf key pos =>
      exact absurd (Item.takes_leaf.mp takes) (noLeaf _ memItem _ (List.mem_singleton_self _))
    | block key pos body close =>
      have starts := (Item.takes_block _ _ _).mp takes
      obtain ⟨path, rfl⟩ := exists_eq_below starts
      have stops : skipWhitespace close = close := dropWhile_of_deref (by rw [fits.2.2.2.2]; rfl)
      have pathFree : 0 ∉ path :=
        fun mem => nulFree (List.mem_append_right _ (List.mem_cons_of_mem _ mem))
      have kept := Doc.length_le_find junk pathFree
        fits.2.2.2.1 stops
      have beforeEnd := fits.1
      simp only [Item.enter, drop_below] at find
      simp only [Item.last] at beforeEnd
      constructor
      · intro notFound
        obtain ⟨pos, atPos, past⟩ := notFound.find
        rw [find] at atPos
        rw [Option.some.inj atPos] at kept
        omega
      · intro noBlock
        have memBlock : ⟨key, pos, close⟩ ∈ doc.blocks rest := by
          rw [Doc.blocks_eq]
          exact List.mem_flatMap.mpr ⟨_, memItem, List.mem_cons_self ..⟩
        exact absurd starts (noBlock _ memBlock)

/-- No block of the text could hold `b`. -/
theorem notFound_iff_twoBlocks :
    NotFound (twoBlocks.print []) [] [98, 0] ↔
      ∀ block ∈ twoBlocks.blocks [], ¬ block.path ++ [dot] <+: [98] :=
  notFound_iff ⟨[], nofun⟩ [] [] twoBlocks_wellFormed (show 0 ∉ ([98] : Bytes) by decide)
    (by decide)

/-- A name missing inside a block that exists is found at the `}` of the block, and
read as the number 0 without an error. -/
theorem found_at_brace :
    twoBlocks.WellFormed ∧ (∀ leaf ∈ twoBlocks.leaves [], leaf.1 ≠ [97, dot, 100]) ∧
      configStringU64 ⟨some (twoBlocks.print []), some []⟩ [97, dot, 100, 0] = some (0, none) ∧
      ¬ NotFound (twoBlocks.print []) [] [97, dot, 100, 0] := by
  have number : configStringU64 ⟨some (twoBlocks.print []), some []⟩ [97, dot, 100, 0] =
      some (0, none) := by decide
  refine ⟨twoBlocks_wellFormed, by decide, number, fun notFound => ?_⟩
  have error := notFound.u64
  rw [number] at error
  cases error

end RiscvLinux.Config
