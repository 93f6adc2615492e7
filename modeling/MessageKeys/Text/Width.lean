import MessageKeys.Text.CharWidth
import MessageKeys.Text.Emoji

/-!
# Display width

How many columns a text takes on a terminal. For most texts that is the sum of what its characters
take. The exceptions are characters that are drawn as one: a line end of two characters, letters
that some scripts join, and emoji that are made of several characters. What a character takes then
depends on what stands behind it, so a text is measured from its end to its beginning.
-/
namespace MessageKeys

/-- What the text behind a character begins with, as far as it bears on that character. -/
inductive Joint where
  /-- Nothing that bears on it. -/
  | free
  | lineFeed
  /-- An Arabic alef; a lam in front is drawn into it. -/
  | alef
  /-- A Hebrew lamed; an alef in front is drawn into it if a joiner stands between them. -/
  | lamed (joined : Bool)
  /-- A Buginese ya; the vowels i and a in front are drawn into it if a joiner stands between. -/
  | ya (joined : Bool)
  | iYa
  /-- A Tifinagh consonant; with a joiner before it, it is drawn with the consonant in front. -/
  | consonant (joined : Bool)
  | signAndConsonant
  /-- The second half of a Lisu tone. -/
  | tone
  /-- An Old Turkic i. -/
  | orkhonI (joined : Bool)
  /-- A Khmer letter that can stand below the one in front. -/
  | subscriptLetter
  | kiratE
  | kiratAi
  | emoji
  | skinTone
  | indicator
  | indicators
  /-- An emoji with a joiner in front, and what of a second emoji was read in front of that. -/
  | joinedEmoji
  | joinedKeycap
  | joinedIndicator
  | joinedIndicators (odd : Bool)
  | joinedTagLetters (count : Nat)
  | joinedTagDigits (count : Nat)
  deriving DecidableEq, Repr

namespace Joint

/-- A joiner is drawn nowhere; it asks its neighbours to be drawn together. -/
def joiner : Char := '\u200D'

/-- Whether a ligature of letters can be under way. Selectors do not end it. -/
def isLetter : Joint → Bool
  | alef | lamed _ | ya _ | iYa | consonant _ | signAndConsonant | tone | orkhonI _
  | subscriptLetter => true
  | _ => false

/-- A ligature that joiners and ignorable marks may stand in: one of letters other than Arabic. -/
def isLoose (joint : Joint) : Bool :=
  joint.isLetter && joint != alef

def isJoinedEmoji : Joint → Bool
  | joinedEmoji | joinedKeycap => true
  | _ => false

/-- The same joint with a joiner in front. -/
def join : Joint → Joint
  | lamed _ => lamed true
  | ya _ => ya true
  | consonant _ => consonant true
  | orkhonI _ => orkhonI true
  | joint => joint

/-- A lam, or an Arabic letter that differs from it in its marks. -/
def lam : CharTable :=
  [(0x644, 0x644), (0x6B5, 0x6B8), (0x76A, 0x76A), (0x8A6, 0x8A6), (0x8C7, 0x8C7)]

/-- An alef, or an Arabic letter that differs from it in its marks. -/
def alefs : CharTable :=
  [(0x622, 0x623), (0x625, 0x625), (0x627, 0x627), (0x671, 0x673), (0x675, 0x675),
   (0x773, 0x774), (0x870, 0x882)]

def consonants : CharTable := [(0x2D31, 0x2D65), (0x2D6F, 0x2D6F)]

/-- The sign between two Tifinagh consonants that are drawn as one. -/
def consonantSign : Char := '\u2D7F'

def firstTones : CharTable := [(0xA4F8, 0xA4FB)]

def secondTones : CharTable := [(0xA4FC, 0xA4FD)]

def subscriptLetters : CharTable :=
  [(0x1780, 0x1782), (0x1784, 0x1787), (0x1789, 0x178C), (0x178E, 0x1793), (0x1795, 0x1798),
   (0x179B, 0x179D), (0x17A0, 0x17A0), (0x17A2, 0x17A2), (0x17A7, 0x17A7), (0x17AB, 0x17AC),
   (0x17AF, 0x17AF)]

/-- The sign that puts the Khmer letter behind it below the one in front. -/
def subscriptSign : Char := '\u17D2'

/-- What a character is to the one in front of it. -/
def ofChar (c : Char) : Joint :=
  if alefs.has c then alef
  else if c = '\u05DC' then lamed false
  else if c = '\u1A10' then ya false
  else if consonants.has c then consonant false
  else if secondTones.has c then tone
  else if c = Char.ofNat 0x10C03 then orkhonI false
  else if subscriptLetters.has c then subscriptLetter
  else if c = Char.ofNat 0x16D67 then kiratE
  else if c = Char.ofNat 0x16D68 then kiratAi
  else if Emoji.skinTone.has c then skinTone
  else if Emoji.indicator.has c then indicator
  else if Emoji.coloured.has c then emoji
  else free

/-- The columns of a character that is drawn with letters behind it, and the joint it leaves. One
that makes a column behind it vanish counts less than nothing. -/
def withLetters? (c : Char) : Joint → Option (Int × Joint)
  | alef =>
    if lam.has c then some (0, free) else if joinsAcross c then some (0, alef) else none
  | lamed true => if c = '\u05D0' then some (0, free) else none
  | ya true => if c = '\u1A17' then some (0, iYa) else none
  | iYa => if c = '\u1A15' then some (0, free) else none
  | consonant joined =>
    if c = consonantSign then some (1, signAndConsonant)
    else if joined && consonants.has c then some (0, free) else none
  | signAndConsonant => if consonants.has c then some (-1, free) else none
  | tone => if firstTones.has c then some (0, free) else none
  | orkhonI true => if c = Char.ofNat 0x10C32 then some (0, free) else none
  | subscriptLetter => if c = subscriptSign then some (-1, free) else none
  | kiratE =>
    if c = Char.ofNat 0x16D63 || c = Char.ofNat 0x16D69 then some (0, free)
    else if c = Char.ofNat 0x16D67 then some (0, kiratAi)
    else if c = Char.ofNat 0x16D68 then some (1, kiratE) else none
  | kiratAi => if c = Char.ofNat 0x16D63 then some (0, free) else none
  | _ => none

/-- The columns of a character that is drawn with an emoji behind it, and the joint it leaves. The
indicators in front of a joiner are paired from the first on, and only a flag is drawn with the
emoji behind the joiner. So a second indicator takes back the column of the one behind it, and a
third one adds three, because the last then stands alone again. -/
def withEmoji? (c : Char) : Joint → Option (Int × Joint)
  | skinTone =>
    if Emoji.skinned.has c then some (0, emoji)
    else if c = joiner then some (0, joinedEmoji) else none
  | indicator => if Emoji.indicator.has c then some (1, indicators) else none
  | indicators =>
    if Emoji.indicator.has c then some (1, indicators)
    else if c = joiner then some (0, joinedEmoji) else none
  | emoji => if c = joiner then some (0, joinedEmoji) else none
  | joinedEmoji =>
    if c = Emoji.keycap then some (0, joinedKeycap)
    else if Emoji.indicator.has c then some (1, joinedIndicator)
    else if Emoji.skinTone.has c then some (0, skinTone)
    else if c = Emoji.endTag then some (0, joinedTagLetters 0)
    else if Emoji.coloured.has c then some (0, emoji) else none
  | joinedIndicator =>
    if Emoji.indicator.has c then some (-1, joinedIndicators false) else none
  | joinedIndicators odd =>
    if Emoji.indicator.has c then
      if odd then some (-1, joinedIndicators false) else some (3, joinedIndicators true)
    else if c = joiner then some (0, joinedEmoji) else none
  | joinedTagLetters count =>
    if Emoji.tagLetter.has c && count < 6 then some (0, joinedTagLetters (count + 1))
    else if Emoji.tagDigit.has c && count < 5 then some (0, joinedTagDigits 1)
    else if c = Emoji.blackFlag && 3 ≤ count then some (0, emoji) else none
  | joinedTagDigits count =>
    if Emoji.tagDigit.has c && count < 3 then some (0, joinedTagDigits (count + 1))
    else if c = Emoji.blackFlag && count = 3 then some (0, emoji) else none
  | _ => none

end Joint

/-- A mark that chooses how the character in front of it is drawn. -/
inductive Selector where
  | plain
  | coloured
  | fullWidth
  deriving DecidableEq, Repr

namespace Selector

def ofChar? (c : Char) : Option Selector :=
  if c = '\uFE0E' then some plain
  else if c = '\uFE0F' then some coloured
  else if c = '\uFE01' then some fullWidth
  else none

/-- The quotation marks that have a full-width form. -/
def quotationMark : CharTable := [(0x2018, 0x2019), (0x201C, 0x201D)]

/-- What is left of a joint when a selector is read in front of it. -/
def keeps (selector : Selector) (joint : Joint) : Joint :=
  if joint.isLetter || (selector = coloured && joint.isJoinedEmoji) then joint else .free

end Selector

/-- What stands behind a character: the selector next to it, if one does, and what comes then. -/
structure Neighbour where
  joint : Joint
  selector : Option Selector
  deriving DecidableEq, Repr

namespace Neighbour

/-- Nothing that bears on the character in front. -/
def free : Neighbour := ⟨.free, none⟩

/-- The columns of a character behind which no selector counts. -/
def place (c : Char) (joint : Joint) : Int × Joint :=
  if joint.isLoose && c = Joint.joiner then (0, joint.join)
  else if joint.isLoose && ignorableMark.has c then (0, joint)
  else
    match joint.withLetters? c, joint.withEmoji? c with
    | some placed, _ | none, some placed => placed
    | none, none => (charWidth c, Joint.ofChar c)

/-- The columns of a character that is not coloured by a selector. -/
def placeUncoloured (c : Char) (after : Neighbour) : Int × Neighbour :=
  let bare := fun (placed : Int × Joint) => (placed.1, (⟨placed.2, none⟩ : Neighbour))
  if c = '\n' then (1, ⟨.lineFeed, none⟩)
  else if c = '\r' && after.joint = .lineFeed then (0, free)
  else if c.toNat ≤ 0xA0 then (1, free)
  else
    match Selector.ofChar? c, after.selector with
    | some selector, _ => (0, ⟨selector.keeps after.joint, some selector⟩)
    | none, some .plain =>
      if Emoji.narrowsWhenPlain c then (1, free) else bare (place c after.joint)
    | none, some .fullWidth =>
      if Selector.quotationMark.has c then (2, free) else bare (place c after.joint)
    | none, _ => bare (place c after.joint)

/-- The columns that a character adds in front of a text, and what it is to the one in front of
it. -/
def step (c : Char) (after : Neighbour) : Int × Neighbour :=
  match after.selector with
  | some .coloured =>
    if Emoji.styled.has c then
      (if after.joint.isJoinedEmoji then 0 else 2, ⟨.emoji, none⟩)
    else placeUncoloured c ⟨if after.joint.isLetter then after.joint else .free, none⟩
  | _ => placeUncoloured c after

end Neighbour

namespace Text

/-- The columns of a text, and what its first character is to one in front of it. -/
def measure : Text → Int × Neighbour
  | [] => (0, .free)
  | c :: rest =>
    let (columns, after) := measure rest
    let (more, neighbour) := Neighbour.step c after
    (columns + more, neighbour)

def width (text : Text) : Nat :=
  (measure text).1.toNat

end Text
end MessageKeys
