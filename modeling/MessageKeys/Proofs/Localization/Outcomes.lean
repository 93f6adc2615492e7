import MessageKeys.Localization.File
import MessageKeys.Proofs.Program

/-!
# What becomes of the values

The service is asked for one value after the other, and for one value again while its faults may
pass. What it answered, what the phrasebook has for it where it failed, and which values it was not
asked for at all are laid down here as a relation, which every run of the translator is in.
-/
namespace MessageKeys.Localization

variable {service : Service} {text language value key : Text} {retries : Nat} {clock : Nat → Moment}
  {calls : List (Text × Text)} {translator : Translator}

/-- How the service is asked for a text: the calls made before and after, and its last reply. A fault
is the last reply if asking again does not help or is no more allowed. -/
inductive Asked (service : Service) (text language : Text) :
    Nat → List (Text × Text) → Reply → List (Text × Text) → Prop where
  | answered {retries : Nat} {calls : List (Text × Text)} {answer : Text}
      (h : service calls.length text language = .ok answer) :
      Asked service text language retries calls (.ok answer) (calls ++ [(text, language)])
  | failed {retries : Nat} {calls : List (Text × Text)} {fault : ServiceFault}
      (h : service calls.length text language = .error fault)
      (hlast : fault.isTransient = false ∨ retries = 0) :
      Asked service text language retries calls (.error fault) (calls ++ [(text, language)])
  | again {retries : Nat} {calls more : List (Text × Text)} {fault : ServiceFault} {reply : Reply}
      (h : service calls.length text language = .error fault) (hpasses : fault.isTransient = true)
      (rest : Asked service text language retries (calls ++ [(text, language)]) reply more) :
      Asked service text language (retries + 1) calls reply more

/-- Only this text was sent, at least once and at most once more than repetitions are allowed. -/
theorem Asked.sent {reply : Reply} {more : List (Text × Text)}
    (h : Asked service text language retries calls reply more) :
    ∃ count ≤ retries, more = calls ++ List.replicate (count + 1) (text, language) := by
  induction h with
  | answered h => exact ⟨0, Nat.zero_le _, rfl⟩
  | failed h hlast => exact ⟨0, Nat.zero_le _, rfl⟩
  | again h hpasses rest ih =>
    obtain ⟨count, hle, rfl⟩ := ih
    refine ⟨count + 1, Nat.succ_le_succ hle, ?_⟩
    rw [List.append_assoc, List.singleton_append, ← List.replicate_succ]

/-- The service alone settles what is asked and answered. -/
theorem Asked.unique {reply other : Reply} {more others : List (Text × Text)}
    (h : Asked service text language retries calls reply more)
    (ho : Asked service text language retries calls other others) :
    reply = other ∧ more = others := by
  induction h with
  | answered h =>
    cases ho with
    | answered h' => exact ⟨h.symm.trans h', rfl⟩
    | failed h' => simp [h] at h'
    | again h' => simp [h] at h'
  | failed h hlast =>
    cases ho with
    | answered h' => simp [h] at h'
    | failed h' => exact ⟨h.symm.trans h', rfl⟩
    | again h' hpasses =>
      obtain rfl := Except.error.inj (h.symm.trans h')
      simp [hpasses] at hlast
  | again h hpasses rest ih =>
    cases ho with
    | answered h' => simp [h] at h'
    | failed h' hlast =>
      obtain rfl := Except.error.inj (h.symm.trans h')
      simp [hpasses] at hlast
    | again h' hpasses' rest' => exact ih rest'

theorem request_run (options : Options) (text language : Text) (pause : Delay)
    (repeated retries : Nat) (world : World) :
    ∃ more, Asked world.service text language retries world.calls
        ((Translator.request options text language pause repeated retries).run world).1 more ∧
      ((Translator.request options text language pause repeated retries).run world).2 =
        { world with calls := more } := by
  induction retries generalizing world pause repeated with
  | zero =>
    refine ⟨world.calls ++ [(text, language)], ?_, rfl⟩
    change Asked _ _ _ _ _ (world.service world.calls.length text language) _
    cases hr : world.service world.calls.length text language with
    | ok answer => exact .answered hr
    | error fault => exact .failed hr (.inr rfl)
  | succ retries ih =>
    rw [Translator.request, Program.run_bind, Program.run_perform]
    simp only [World.perform]
    cases hr : world.service world.calls.length text language with
    | ok answer => exact ⟨_, .answered hr, rfl⟩
    | error fault =>
      by_cases hp : fault.isTransient = true
      · obtain ⟨more, hmore, hworld⟩ := ih (options.retryPause repeated) (repeated + 1)
          { world with calls := world.calls ++ [(text, language)] }
        simp only [hp, if_true]
        exact ⟨more, .again hr hp hmore, hworld⟩
      · simp only [hp]
        exact ⟨_, .failed hr (.inl (by simpa using hp)), rfl⟩

/-- The calls made so far, and whether one of them was for a value of the file at hand. -/
structure Requests where
  asked : Bool
  calls : List (Text × Text)

/-- A text with the time behind it, if that is wanted. -/
def stamped (options : Options) (time : Moment) (text : Text) : Text :=
  if options.timestamps then text ++ " - ".toList ++ time.toText else text

theorem stamped_of_plain {options : Options} (h : options.timestamps = false) (time : Moment)
    (text : Text) : stamped options time text = text := by
  rw [stamped, h]
  rfl

theorem stamp_run (options : Options) (text : Text) (world : World) :
    (Translator.stamp options text).run world =
      (stamped options (world.clock world.calls.length) text, world) := by
  unfold Translator.stamp stamped
  split <;> rfl

/-- Whether the service is asked for a value. -/
def Translator.asksFor (translator : Translator) (asked : Bool) (value : Text) : Prop :=
  value ≠ [] ∧ ¬ (translator.options.testing = true ∧ asked = true)

/-- What becomes of a value. The time that is written behind it is read after the last call for it. -/
inductive Treated (translator : Translator) (service : Service) (clock : Nat → Moment)
    (language : Text) :
    Requests → Text → Outcome → Requests → Prop where
  | unasked {requests : Requests} {value : Text}
      (h : ¬ translator.asksFor requests.asked value) :
      Treated translator service clock language requests value .untranslated requests
  | translated {requests : Requests} {value answer : Text} {more : List (Text × Text)}
      (hask : translator.asksFor requests.asked value)
      (h : Asked service value language translator.options.allowedRetries requests.calls
        (.ok answer) more) :
      Treated translator service clock language requests value
        (.translated (stamped translator.options (clock more.length) answer.trim)) ⟨true, more⟩
  | fallback {requests : Requests} {value phrase : Text} {fault : ServiceFault}
      {more : List (Text × Text)} (hask : translator.asksFor requests.asked value)
      (h : Asked service value language translator.options.allowedRetries requests.calls
        (.error fault) more)
      (hphrase : translator.phrasebook.lookup? value language = some phrase) :
      Treated translator service clock language requests value
        (.fallback (stamped translator.options (clock more.length) phrase)) ⟨true, more⟩
  | failed {requests : Requests} {value : Text} {fault : ServiceFault} {more : List (Text × Text)}
      (hask : translator.asksFor requests.asked value)
      (h : Asked service value language translator.options.allowedRetries requests.calls
        (.error fault) more)
      (hphrase : translator.phrasebook.lookup? value language = none) :
      Treated translator service clock language requests value .untranslated ⟨true, more⟩

theorem Treated.unique {before after other : Requests} {outcome found : Outcome}
    (h : Treated translator service clock language before value outcome after)
    (ho : Treated translator service clock language before value found other) :
    outcome = found ∧ after = other := by
  cases h with
  | unasked h =>
    cases ho with
    | unasked h' => exact ⟨rfl, rfl⟩
    | translated hask => exact absurd hask h
    | fallback hask => exact absurd hask h
    | failed hask => exact absurd hask h
  | translated hask h =>
    cases ho with
    | unasked h' => exact absurd hask h'
    | translated hask' h' =>
      obtain ⟨hr, rfl⟩ := h.unique h'
      obtain rfl := Except.ok.inj hr
      exact ⟨rfl, rfl⟩
    | fallback hask' h' => simpa using (h.unique h').1
    | failed hask' h' => simpa using (h.unique h').1
  | fallback hask h hphrase =>
    cases ho with
    | unasked h' => exact absurd hask h'
    | translated hask' h' => simpa using (h.unique h').1
    | fallback hask' h' hphrase' =>
      obtain ⟨-, rfl⟩ := h.unique h'
      obtain rfl := Option.some.inj (hphrase.symm.trans hphrase')
      exact ⟨rfl, rfl⟩
    | failed hask' h' hphrase' => simp [hphrase] at hphrase'
  | failed hask h hphrase =>
    cases ho with
    | unasked h' => exact absurd hask h'
    | translated hask' h' => simpa using (h.unique h').1
    | fallback hask' h' hphrase' => simp [hphrase] at hphrase'
    | failed hask' h' hphrase' => exact ⟨rfl, by rw [(h.unique h').2]⟩

/-- What becomes of the entries of a file, one after the other. -/
inductive TreatedAll (translator : Translator) (service : Service) (clock : Nat → Moment)
    (language : Text) : Requests → List (Text × Text) → List (Text × Outcome) → Requests → Prop where
  | nil (requests : Requests) : TreatedAll translator service clock language requests [] [] requests
  | cons {before between after : Requests} {key value : Text} {outcome : Outcome}
      {entries : List (Text × Text)} {outcomes : List (Text × Outcome)}
      (first : Treated translator service clock language before value outcome between)
      (rest : TreatedAll translator service clock language between entries outcomes after) :
      TreatedAll translator service clock language before ((key, value) :: entries)
        ((key, outcome) :: outcomes) after

theorem translateValue_run (translator : Translator) (language : Text) {asked : Bool}
    (hask : translator.asksFor asked value) (world : World) :
    ∃ more, Treated translator world.service world.clock language ⟨asked, world.calls⟩ value
        ((translator.translateValue value language).run world).1 ⟨true, more⟩ ∧
      ((translator.translateValue value language).run world).2 = { world with calls := more } := by
  obtain ⟨more, hasked, hworld⟩ := request_run translator.options value language
    translator.options.pause 0 translator.options.allowedRetries world
  rw [Translator.translateValue, Program.run_bind, hworld]
  cases hr : ((Translator.request translator.options value language translator.options.pause 0
      translator.options.allowedRetries).run world).1 with
  | ok answer =>
    rw [hr] at hasked
    rw [Program.run_bind, stamp_run]
    exact ⟨more, .translated hask hasked, rfl⟩
  | error fault =>
    rw [hr] at hasked
    cases hl : translator.phrasebook.lookup? value language with
    | some phrase =>
      dsimp only
      rw [Program.run_bind, stamp_run]
      exact ⟨more, .fallback hask hasked hl, rfl⟩
    | none =>
      exact ⟨more, .failed hask hasked hl, rfl⟩

/-- Every run of the translator treats all entries, and changes nothing but the calls made. -/
theorem translateEntries_run (translator : Translator) (language : Text) (asked : Bool)
    (entries : List (Text × Text)) (world : World) :
    ∃ after, TreatedAll translator world.service world.clock language ⟨asked, world.calls⟩ entries
        ((translator.translateEntries language asked entries).run world).1 after ∧
      ((translator.translateEntries language asked entries).run world).2 =
        { world with calls := after.calls } := by
  induction entries generalizing asked world with
  | nil => exact ⟨_, .nil _, rfl⟩
  | cons entry entries ih =>
    obtain ⟨key, value⟩ := entry
    rw [Translator.translateEntries]
    by_cases hask : translator.asksFor asked value
    · obtain ⟨more, hfirst, hworld⟩ := translateValue_run translator language hask world
      obtain ⟨after, hrest, hall⟩ := ih true { world with calls := more }
      rw [if_neg (by simpa [Translator.asksFor] using hask), Program.run_bind, hworld,
        Program.run_bind]
      exact ⟨after, .cons hfirst hrest, hall⟩
    · obtain ⟨after, hrest, hall⟩ := ih asked world
      rw [if_pos (by simpa [Translator.asksFor, Classical.or_iff_not_imp_left] using hask),
        Program.run_bind]
      exact ⟨after, .cons (.unasked hask) hrest, hall⟩

namespace TreatedAll

variable {before after : Requests} {entries : List (Text × Text)}
  {outcomes : List (Text × Outcome)}

theorem map_fst (h : TreatedAll translator service clock language before entries outcomes after) :
    outcomes.map Prod.fst = entries.map Prod.fst := by
  induction h with
  | nil => rfl
  | cons first rest ih => rw [List.map_cons, List.map_cons, ih]

/-- No key has two outcomes. -/
theorem exists_map {entries : OrderedMap Text Text}
    (h : TreatedAll translator service clock language before entries.entries outcomes after) :
    ∃ found : OrderedMap Text Outcome, found.entries = outcomes ∧ found.keys = entries.keys :=
  ⟨⟨outcomes, h.map_fst ▸ entries.nodup⟩, rfl, h.map_fst⟩

theorem treated {outcome : Outcome}
    (h : TreatedAll translator service clock language before entries outcomes after)
    (hm : (key, outcome) ∈ outcomes) :
    ∃ value start stop, Treated translator service clock language start value outcome stop := by
  induction h with
  | nil => simp at hm
  | cons first rest ih =>
    rcases List.mem_cons.mp hm with he | hm
    · obtain ⟨-, rfl⟩ := Prod.mk.inj he
      exact ⟨_, _, _, first⟩
    · exact ih hm

/-- The service, the phrasebook and the clock settle what becomes of the entries. -/
theorem unique {others : List (Text × Outcome)} {other : Requests}
    (h : TreatedAll translator service clock language before entries outcomes after)
    (ho : TreatedAll translator service clock language before entries others other) :
    outcomes = others ∧ after = other := by
  induction h generalizing others with
  | nil =>
    cases ho
    exact ⟨rfl, rfl⟩
  | cons first rest ih =>
    cases ho with
    | cons first' rest' =>
      obtain ⟨rfl, rfl⟩ := first.unique first'
      obtain ⟨rfl, rfl⟩ := ih rest'
      exact ⟨rfl, rfl⟩

/-- Nothing but values of the file was sent, and no empty one. -/
theorem sent (h : TreatedAll translator service clock language before entries outcomes after) :
    ∃ sent, after.calls = before.calls ++ sent ∧
      ∀ call ∈ sent, call.1 ∈ entries.map Prod.snd ∧ call.1 ≠ [] ∧ call.2 = language := by
  induction h with
  | nil => exact ⟨[], by simp, by simp⟩
  | @cons before between after key value outcome entries outcomes first rest ih =>
    obtain ⟨later, hlater, hvalues⟩ := ih
    have hfirst : ∃ sent, between.calls = before.calls ++ sent ∧
        ∀ call ∈ sent, call = (value, language) ∧ value ≠ [] := by
      have hasked {reply : Reply} {more : List (Text × Text)}
          (hask : translator.asksFor before.asked value)
          (h : Asked service value language translator.options.allowedRetries before.calls reply
            more) :
          ∃ sent, more = before.calls ++ sent ∧
            ∀ call ∈ sent, call = (value, language) ∧ value ≠ [] := by
        obtain ⟨count, -, rfl⟩ := h.sent
        exact ⟨_, rfl, fun call hc => ⟨List.eq_of_mem_replicate hc, hask.1⟩⟩
      cases first with
      | unasked h => exact ⟨[], by simp, by simp⟩
      | translated hask h => exact hasked hask h
      | fallback hask h hphrase => exact hasked hask h
      | failed hask h hphrase => exact hasked hask h
    obtain ⟨sent, hsent, hcalls⟩ := hfirst
    refine ⟨sent ++ later, by rw [hlater, hsent, List.append_assoc], fun call hc => ?_⟩
    rcases List.mem_append.mp hc with hc | hc
    · obtain ⟨rfl, hv⟩ := hcalls call hc
      exact ⟨by simp, hv, rfl⟩
    · obtain ⟨hm, hv⟩ := hvalues call hc
      exact ⟨List.mem_cons_of_mem _ hm, hv⟩

end TreatedAll

end MessageKeys.Localization
