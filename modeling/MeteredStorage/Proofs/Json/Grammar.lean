import MeteredStorage.Json.Scan
import MeteredStorage.Text.Decimal

namespace MeteredStorage.Json

structure Blanks where
  chars : List Char
  blank : ∀ c ∈ chars, isBlank c = true

def Blanks.none : Blanks := ⟨[], nofun⟩

def isPlain (c : Char) : Bool := c != '"' && c != '\\' && 0x20 ≤ c.toNat

/-- A string after its opening quote. Its escapes have the right shape; half a character is one. -/
inductive StringText : List Char → Prop
  | close : StringText ['"']
  | plain {c : Char} {s : List Char} (hc : isPlain c = true) (hs : StringText s) : StringText (c :: s)
  | short {c e : Char} {s : List Char} (he : escaped? e = some c) (hs : StringText s) :
      StringText ('\\' :: e :: s)
  | unit {x y z w : Char} {unit : Nat} {s : List Char} (hu : codeUnit? x y z w = some unit)
      (hs : StringText s) : StringText ('\\' :: 'u' :: x :: y :: z :: w :: s)

/-- A string after its opening quote, with the characters that it denotes. Halves come in pairs only. -/
inductive Spells : List Char → List Char → Prop
  | close : Spells [] ['"']
  | plain {c : Char} {name s : List Char} (hc : isPlain c = true) (hs : Spells name s) :
      Spells (c :: name) (c :: s)
  | short {c e : Char} {name s : List Char} (he : escaped? e = some c) (hs : Spells name s) :
      Spells (c :: name) ('\\' :: e :: s)
  | unit {x y z w : Char} {unit : Nat} {name s : List Char} (hu : codeUnit? x y z w = some unit)
      (hlow : isLowSurrogate unit = false) (hhigh : isHighSurrogate unit = false)
      (hs : Spells name s) :
      Spells (Char.ofNat unit :: name) ('\\' :: 'u' :: x :: y :: z :: w :: s)
  | pair {x y z w x' y' z' w' : Char} {high low : Nat} {name s : List Char}
      (hu : codeUnit? x y z w = some high) (hhigh : isHighSurrogate high = true)
      (hu' : codeUnit? x' y' z' w' = some low) (hlow : isLowSurrogate low = true)
      (hs : Spells name s) :
      Spells (Char.ofNat (0x10000 + (high - 0xD800) * 0x400 + (low - 0xDC00)) :: name)
        ('\\' :: 'u' :: x :: y :: z :: w :: '\\' :: 'u' :: x' :: y' :: z' :: w' :: s)

structure IsDigits (ds : List Char) : Prop where
  ne_nil : ds ≠ []
  isDigit : ∀ c ∈ ds, c.isDigit = true

inductive FractionText : List Char → Prop
  | absent : FractionText []
  | present {ds : List Char} (hd : IsDigits ds) : FractionText ('.' :: ds)

inductive ExponentText : List Char → Prop
  | absent : ExponentText []
  | unsigned {e : Char} {ds : List Char} (he : e = 'e' ∨ e = 'E') (hd : IsDigits ds) :
      ExponentText (e :: ds)
  | signed {e sign : Char} {ds : List Char} (he : e = 'e' ∨ e = 'E') (hs : sign = '+' ∨ sign = '-')
      (hd : IsDigits ds) : ExponentText (e :: sign :: ds)

inductive NumberText : List Char → Prop
  | unsigned {f x : List Char} (n : Nat) (hf : FractionText f) (hx : ExponentText x) :
      NumberText (Decimal.ofNat n ++ (f ++ x))
  | negative {f x : List Char} (n : Nat) (hf : FractionText f) (hx : ExponentText x) :
      NumberText ('-' :: (Decimal.ofNat n ++ (f ++ x)))

structure Spacing where
  beforeName : Blanks
  afterName : Blanks
  beforeValue : Blanks
  afterValue : Blanks

def Spacing.none : Spacing := ⟨.none, .none, .none, .none⟩

def Spacing.member (sp : Spacing) (name value rest : List Char) : List Char :=
  sp.beforeName.chars ++ '"' :: (name ++ (sp.afterName.chars ++ ':' :: (sp.beforeValue.chars ++
    (value ++ (sp.afterValue.chars ++ rest)))))

/-- What a text is: a value, or the inside of an array or object that is not empty, to its end. -/
inductive Symbol
  | value
  | elements
  | members

inductive JsonText : Symbol → List Char → Prop
  | null : JsonText .value ['n', 'u', 'l', 'l']
  | true : JsonText .value ['t', 'r', 'u', 'e']
  | false : JsonText .value ['f', 'a', 'l', 's', 'e']
  | number {s : List Char} (hs : NumberText s) : JsonText .value s
  | string {s : List Char} (hs : StringText s) : JsonText .value ('"' :: s)
  | emptyArray (b : Blanks) : JsonText .value ('[' :: (b.chars ++ [']']))
  | array {s : List Char} (hs : JsonText .elements s) : JsonText .value ('[' :: s)
  | emptyObject (b : Blanks) : JsonText .value ('\x7b' :: (b.chars ++ ['\x7d']))
  | object {s : List Char} (hs : JsonText .members s) : JsonText .value ('\x7b' :: s)
  | lastElement {v : List Char} (b b' : Blanks) (hv : JsonText .value v) :
      JsonText .elements (b.chars ++ (v ++ (b'.chars ++ [']'])))
  | nextElement {v s : List Char} (b b' : Blanks) (hv : JsonText .value v)
      (hs : JsonText .elements s) : JsonText .elements (b.chars ++ (v ++ (b'.chars ++ ',' :: s)))
  | lastMember {name v : List Char} (sp : Spacing) (hname : StringText name)
      (hv : JsonText .value v) : JsonText .members (sp.member name v ['\x7d'])
  | nextMember {name v s : List Char} (sp : Spacing) (hname : StringText name)
      (hv : JsonText .value v) (hs : JsonText .members s) :
      JsonText .members (sp.member name v (',' :: s))

abbrev Member := List Char × List Char

inductive MembersText : List Member → List Char → Prop
  | last {name spelled v : List Char} (sp : Spacing) (hname : Spells name spelled) :
      MembersText [(name, v)] (sp.member spelled v ['\x7d'])
  | next {name spelled v s : List Char} {ms : List Member} (sp : Spacing)
      (hname : Spells name spelled) (hs : MembersText ms s) :
      MembersText ((name, v) :: ms) (sp.member spelled v (',' :: s))

/--
An object with the members `known` and any further members of other names, in any order. Only the
values of the further members are asked to be text of the grammar.
-/
def IsObject (known : List Member) (text : List Char) : Prop :=
  ∃ (s : List Char) (ms others : List Member), text = '\x7b' :: s ∧ MembersText ms s ∧
    ms.Perm (known ++ others) ∧
    ∀ m ∈ others, m.1 ∉ known.map Prod.fst ∧ JsonText .value m.2

end MeteredStorage.Json
