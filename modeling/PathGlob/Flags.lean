/-!
# Match flags

Three options change how a pattern is matched. They are kept as a word of 32 bits rather than as
three Booleans, because bits without a name may be added to a set of flags, are kept, and appear in
its text; matching never looks at them. A flag is read through `Flags.has` alone, and the lemmas
below say what each operation does to that reading.
-/

namespace PathGlob

/-- An option of matching. -/
inductive Flag where
  /-- The whole path has to be matched, not just a beginning of it, and a brace group does not
  commit to the first alternative that matches. -/
  | fullMatch
  /-- `**` goes on at separators only, unless none is left. -/
  | legacyGlobstar
  /-- A negated class at which no member matches is meant to end the match on the spot, and ends
  its own sequence. -/
  | legacyNegation
  deriving DecidableEq, Inhabited

namespace Flag

/-- All flags, in the order of their bits. -/
def all : List Flag := [.fullMatch, .legacyGlobstar, .legacyNegation]

theorem mem_all (flag : Flag) : flag ∈ all := by
  cases flag <;> decide

/-- The place of the flag's bit. -/
def index : Flag → Nat
  | .fullMatch => 0
  | .legacyGlobstar => 1
  | .legacyNegation => 2

theorem index_lt (flag : Flag) : flag.index < 32 := by
  cases flag <;> decide

theorem index_inj {a b : Flag} : a.index = b.index ↔ a = b := by
  cases a <;> cases b <;> decide

/-- The word that holds the flag's bit and no other. -/
def bit (flag : Flag) : BitVec 32 := BitVec.twoPow 32 flag.index

/-- The name by which a flag is shown. -/
def name : Flag → String
  | .fullMatch => "FULL_MATCH"
  | .legacyGlobstar => "LEGACY_GLOBSTAR"
  | .legacyNegation => "LEGACY_NEGATION"

end Flag

/-- A set of flags. Bits that belong to no flag are kept but mean nothing. -/
structure Flags where
  /-- The set as a word. -/
  bits : BitVec 32
  deriving DecidableEq

namespace Flags

/-- The set without flags: a path matches if some beginning of it does. -/
def empty : Flags := ⟨0⟩

instance : Inhabited Flags := ⟨empty⟩

/-- Whether a flag is in the set. -/
def has (flags : Flags) (flag : Flag) : Bool := flags.bits.getLsbD flag.index

/-- Every flag or unnamed bit of either set. -/
def union (a b : Flags) : Flags := ⟨a.bits ||| b.bits⟩

/-- The set with a flag put in. -/
def insert (flags : Flags) (flag : Flag) : Flags := ⟨flags.bits ||| flag.bit⟩

/-- The set with a flag taken out. -/
def erase (flags : Flags) (flag : Flag) : Flags := ⟨flags.bits &&& ~~~flag.bit⟩

/-- The set with a flag put in or taken out. -/
def put (flags : Flags) (flag : Flag) (on : Bool) : Flags :=
  if on then flags.insert flag else flags.erase flag

/-- The word of all bits that belong to a flag. -/
def namedBits : BitVec 32 :=
  Flag.all.foldl (fun word flag ↦ word ||| flag.bit) 0

/-- The set without its unnamed bits. -/
def named (flags : Flags) : Flags := ⟨flags.bits &&& namedBits⟩

/-- The bits of the set that belong to no flag. -/
def unnamed (flags : Flags) : BitVec 32 := flags.bits &&& ~~~namedBits

/-! ## Reading a flag back -/

@[simp] theorem has_empty (flag : Flag) : empty.has flag = false := by
  simp [has, empty]

@[simp] theorem has_union (a b : Flags) (flag : Flag) :
    (a.union b).has flag = (a.has flag || b.has flag) := by
  simp [has, union]

private theorem getLsbD_bit (a b : Flag) : a.bit.getLsbD b.index = decide (b = a) := by
  cases a <;> cases b <;> decide

@[simp] theorem has_insert (flags : Flags) (a b : Flag) :
    (flags.insert a).has b = (flags.has b || decide (b = a)) := by
  simp [has, insert, getLsbD_bit]

@[simp] theorem has_erase (flags : Flags) (a b : Flag) :
    (flags.erase a).has b = (flags.has b && !decide (b = a)) := by
  simp only [has, erase, BitVec.getLsbD_and, BitVec.getLsbD_not, getLsbD_bit, b.index_lt,
    decide_true, Bool.true_and]

@[simp] theorem has_put (flags : Flags) (a b : Flag) (on : Bool) :
    (flags.put a on).has b = if b = a then on else flags.has b := by
  cases on <;> by_cases h : b = a <;> simp [put, h]

@[simp] theorem has_named (flags : Flags) (flag : Flag) :
    flags.named.has flag = flags.has flag := by
  have hbit : namedBits.getLsbD flag.index = true := by cases flag <;> decide
  simp [has, named, hbit]

/-! ## Text -/

/-- A word in lower-case hexadecimal digits, without leading zeros. -/
def wordText (word : BitVec 32) : String := "0x" ++ String.ofList (Nat.toDigits 16 word.toNat)

/-- The set as it is shown: the names of its flags in the order of their bits, and then the unnamed
bits as one number. A set without any bit is shown as that number, zero. -/
def text (flags : Flags) : String :=
  let names := (Flag.all.filter flags.has).map Flag.name
  let rest := if flags.unnamed = 0 then [] else [wordText flags.unnamed]
  if flags.bits = 0 then wordText 0 else " | ".intercalate (names ++ rest)

instance : ToString Flags := ⟨text⟩

end Flags

end PathGlob
