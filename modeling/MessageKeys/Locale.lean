import MessageKeys.Failure

/-!
# Locales

A locale is a region and a language, written `US_en`. File names carry the whole of it; the
translating service knows the language alone.
-/
namespace MessageKeys

structure Locale where
  region : Text
  language : Text
  deriving DecidableEq, Repr

namespace Locale

def toText (locale : Locale) : Text :=
  locale.region ++ '_' :: locale.language

/-- Reads `<region>_<language>`; the first underscore divides, so a language may hold more. -/
def parse (text : Text) : Except Failure Locale :=
  match text.cut? ['_'] with
  | some (region, language) =>
    if region.isEmpty || language.isEmpty then .error (.ofCause (.invalidLocale text))
    else .ok ⟨region, language⟩
  | none => .error (.ofCause (.invalidLocale text))

/-- The part of a file name that tells its locale: `.US_en.`. -/
def segment (locale : Locale) : Text :=
  '.' :: locale.toText ++ ['.']

def withLanguage (locale : Locale) (language : Text) : Locale :=
  { locale with language }

end Locale
end MessageKeys
