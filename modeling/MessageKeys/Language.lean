import MessageKeys.Text.Basic

/-!
# Languages

The languages a project translates into are a list of codes and names; the codes of ISO 639 that
the translating service understands are known by their English names as well.
-/
namespace MessageKeys

structure Language where
  code : Text
  name : Text
  deriving DecidableEq, Repr

namespace Language

/-- What a project starts with. -/
def defaults : List Language :=
  [⟨"en".toList, "English".toList⟩, ⟨"es".toList, "Spanish".toList⟩,
    ⟨"hi".toList, "Hindi".toList⟩]

/-- Language codes of ISO 639, some with a region, and their English names. -/
def isoNames : List (String × String) :=
  [("af", "Afrikaans"), ("sq", "Albanian"), ("am", "Amharic"), ("ar", "Arabic"),
    ("hy", "Armenian"), ("az", "Azerbaijani"), ("eu", "Basque"), ("be", "Belarusian"),
    ("bn", "Bengali"), ("bs", "Bosnian"), ("bg", "Bulgarian"), ("ca", "Catalan"),
    ("ceb", "Cebuano"), ("ny", "Chichewa"), ("zh-CN", "Chinese (Simplified)"),
    ("zh-TW", "Chinese (Traditional)"), ("co", "Corsican"), ("hr", "Croatian"), ("cs", "Czech"),
    ("da", "Danish"), ("nl", "Dutch"), ("en", "English"), ("eo", "Esperanto"),
    ("et", "Estonian"), ("tl", "Filipino"), ("fi", "Finnish"), ("fr", "French"),
    ("fy", "Frisian"), ("gl", "Galician"), ("ka", "Georgian"), ("de", "German"), ("el", "Greek"),
    ("gu", "Gujarati"), ("ht", "Haitian Creole"), ("ha", "Hausa"), ("haw", "Hawaiian"),
    ("iw", "Hebrew"), ("hi", "Hindi"), ("hmn", "Hmong"), ("hu", "Hungarian"),
    ("is", "Icelandic"), ("ig", "Igbo"), ("id", "Indonesian"), ("ga", "Irish"),
    ("it", "Italian"), ("ja", "Japanese"), ("jw", "Javanese"), ("kn", "Kannada"),
    ("kk", "Kazakh"), ("km", "Khmer"), ("ko", "Korean"), ("ku", "Kurdish (Kurmanji)"),
    ("ky", "Kyrgyz"), ("lo", "Lao"), ("la", "Latin"), ("lv", "Latvian"), ("lt", "Lithuanian"),
    ("lb", "Luxembourgish"), ("mk", "Macedonian"), ("mg", "Malagasy"), ("ms", "Malay"),
    ("ml", "Malayalam"), ("mt", "Maltese"), ("mi", "Maori"), ("mr", "Marathi"),
    ("mn", "Mongolian"), ("my", "Myanmar (Burmese)"), ("ne", "Nepali"), ("no", "Norwegian"),
    ("ps", "Pashto"), ("fa", "Persian"), ("pl", "Polish"), ("pt", "Portuguese"),
    ("pa", "Punjabi"), ("ro", "Romanian"), ("ru", "Russian"), ("sm", "Samoan"),
    ("gd", "Scots Gaelic"), ("sr", "Serbian"), ("st", "Sesotho"), ("sn", "Shona"),
    ("sd", "Sindhi"), ("si", "Sinhala"), ("sk", "Slovak"), ("sl", "Slovenian"), ("so", "Somali"),
    ("es", "Spanish"), ("su", "Sundanese"), ("sw", "Swahili"), ("sv", "Swedish"),
    ("tg", "Tajik"), ("ta", "Tamil"), ("te", "Telugu"), ("th", "Thai"), ("tr", "Turkish"),
    ("uk", "Ukrainian"), ("ur", "Urdu"), ("uz", "Uzbek"), ("vi", "Vietnamese"), ("cy", "Welsh"),
    ("xh", "Xhosa"), ("yi", "Yiddish"), ("yo", "Yoruba"), ("zu", "Zulu")]

def iso : List Language :=
  isoNames.map fun (code, name) => ⟨code.toList, name.toList⟩

def isoName? (code : Text) : Option Text :=
  (iso.find? fun language => language.code == code).map Language.name

/-- The code of an English name; letter case does not matter. -/
def isoCode? (name : Text) : Option Text :=
  (iso.find? fun language => Text.sameLetters language.name name).map Language.code

/-- The code that a user means by a code or a name: the project's own list comes first, then the
codes of ISO 639, then its names. -/
def resolve? (languages : List Language) (target : Text) : Option Text :=
  ((languages.find? fun language =>
      language.code == target || Text.sameLetters language.name target).map Language.code)
    <|> ((isoName? target).map fun _ => target)
    <|> isoCode? target

end Language
end MessageKeys
