import MessageKeys.Localization.Service
import MessageKeys.OrderedMap
import MessageKeys.Text.Blank

/-!
# Phrasebooks

A phrasebook knows some phrases in some languages. It stands in where the service fails. A phrase
is looked up without the white space around it.
-/
namespace MessageKeys.Localization

/-- What phrases become, by language and phrase. -/
structure Phrasebook where
  phrases : OrderedMap (Text × Text) Text
  deriving DecidableEq

namespace Phrasebook

def empty : Phrasebook := ⟨.empty⟩

def insert (book : Phrasebook) (language phrase translated : Text) : Phrasebook :=
  ⟨book.phrases.insert (language, phrase) translated⟩

def lookup? (book : Phrasebook) (text language : Text) : Option Text :=
  book.phrases.get? (language, text.trim)

/-- A phrasebook asked as a service is. -/
def reply (book : Phrasebook) (text language : Text) : Reply :=
  match book.lookup? text language with
  | some translated => .ok translated
  | none => .error (.unavailable text language)

def spanish : List (String × String) :=
  [("Hello", "Hola"), ("Goodbye", "Adiós"), ("Welcome", "Bienvenido"), ("Yes", "Sí"),
    ("No", "No"), ("Thank you", "Gracias"), ("Please", "Por favor"), ("Save", "Guardar"),
    ("Cancel", "Cancelar"), ("Submit", "Enviar")]

def hindi : List (String × String) :=
  [("Hello", "नमस्ते"), ("Goodbye", "अलविदा"), ("Welcome", "स्वागत है"), ("Yes", "हाँ"),
    ("No", "नहीं"), ("Thank you", "धन्यवाद"), ("Please", "कृपया"), ("Save", "सहेजें"),
    ("Cancel", "रद्द करें"), ("Submit", "जमा करें")]

def french : List (String × String) :=
  [("Hello", "Bonjour"), ("Goodbye", "Au revoir"), ("Welcome", "Bienvenue"), ("Yes", "Oui"),
    ("No", "Non"), ("Thank you", "Merci"), ("Please", "S'il vous plaît"),
    ("Save", "Enregistrer"), ("Cancel", "Annuler"), ("Submit", "Soumettre")]

def german : List (String × String) :=
  [("Hello", "Hallo"), ("Goodbye", "Auf Wiedersehen"), ("Welcome", "Willkommen"), ("Yes", "Ja"),
    ("No", "Nein"), ("Thank you", "Danke"), ("Please", "Bitte"), ("Save", "Speichern"),
    ("Cancel", "Abbrechen"), ("Submit", "Absenden")]

/-- Common words of buttons and greetings in four languages. -/
def builtin : Phrasebook :=
  [("es", spanish), ("hi", hindi), ("fr", french), ("de", german)].foldl (fun book table =>
    table.2.foldl (fun book entry =>
      book.insert table.1.toList entry.1.toList entry.2.toList) book) empty

end Phrasebook
end MessageKeys.Localization
