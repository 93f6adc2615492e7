import MessageKeys.Proofs.Localization.File

/-!
# What is sent to the service

The calls made for a file come in blocks, one for each key that the service is asked for, in the
order of the keys. A block is a call and its repetitions: every reply but the last met a passing
fault, and the last one settles what becomes of the key. Which reply a call gets hangs on the number
of calls made before it, so each block is described from the place where it begins.
-/
namespace MessageKeys.Localization

open OrderedMap (firsts last?)
open Properties (Line entries parse)

variable {translator : Translator} {service : Service} {text language value key : Text}
  {retries start : Nat} {clock : Nat → Moment}

/-- A fault after which asking again may help. -/
def Passing : Reply → Prop
  | .error .network => True
  | .error (.status code) => code = 429 ∨ 500 ≤ code
  | _ => False

theorem passing_error_iff (fault : ServiceFault) :
    Passing (.error fault) ↔ fault.isTransient = true := by
  cases fault <;> simp [Passing, ServiceFault.isTransient]

/-- The calls for one key: the first one, and its repetitions. -/
structure Block where
  key : Text
  value : Text
  repeated : Nat

namespace Block

variable {block : Block}

def calls (language : Text) (block : Block) : List (Text × Text) :=
  List.replicate (block.repeated + 1) (block.value, language)

/-- The reply to the last call of a block, where `start` calls were made before the block. -/
def reply (service : Service) (language : Text) (start : Nat) (block : Block) : Reply :=
  service (start + block.repeated) block.value language

/-- Whether a block ends where it has to: each reply but the last is a passing fault, and the last one
is none, unless no more repetitions are allowed. -/
structure Settled (service : Service) (language : Text) (allowed start : Nat) (block : Block) :
    Prop where
  repeated_le : block.repeated ≤ allowed
  passing : ∀ index < block.repeated, Passing (service (start + index) block.value language)
  last : Passing (block.reply service language start) → block.repeated = allowed

end Block

/-- Asking for a text makes one block of calls. -/
theorem Asked.exists_settled {calls more : List (Text × Text)} {reply : Reply}
    (h : Asked service text language retries calls reply more) (key : Text) :
    ∃ repeated, Block.Settled service language retries calls.length ⟨key, text, repeated⟩ ∧
      Block.reply service language calls.length ⟨key, text, repeated⟩ = reply ∧
      more = calls ++ Block.calls language ⟨key, text, repeated⟩ := by
  induction h with
  | answered h =>
    refine ⟨0, ⟨Nat.zero_le _, by simp, fun hp => ?_⟩, h, rfl⟩
    rw [Block.reply, Nat.add_zero, h] at hp
    exact hp.elim
  | failed h hlast =>
    refine ⟨0, ⟨Nat.zero_le _, by simp, fun hp => ?_⟩, h, rfl⟩
    rw [Block.reply, Nat.add_zero, h, passing_error_iff] at hp
    exact (hlast.resolve_left (by simp [hp])).symm
  | @again retries calls more fault reply h hpasses rest ih =>
    obtain ⟨repeated, ⟨hle, hpassing, hlast⟩, hreply, rfl⟩ := ih
    have hnext (index : Nat) :
        (calls ++ [(text, language)]).length + index = calls.length + (index + 1) := by
      rw [List.length_append, List.length_singleton]
      omega
    simp only [Block.reply, hnext] at hpassing hlast hreply
    refine ⟨repeated + 1, ⟨Nat.succ_le_succ hle, ?_, fun hp => congrArg _ (hlast hp)⟩, hreply, ?_⟩
    · rintro (_ | index) hindex
      · rw [Nat.add_zero, h, passing_error_iff]
        exact hpasses
      · exact hpassing index (Nat.lt_of_succ_lt_succ hindex)
    · rw [Block.calls, Block.calls, List.append_assoc, List.singleton_append, ← List.replicate_succ]

/-- What the last reply makes of a value. -/
def Translator.outcomeOf (translator : Translator) (time : Moment) (value language : Text) :
    Reply → Outcome
  | .ok answer => .translated (stamped translator.options time answer.trim)
  | .error _ =>
    match translator.phrasebook.lookup? value language with
    | some phrase => .fallback (stamped translator.options time phrase)
    | none => .untranslated

/-- What becomes of the key of a block that begins behind `start` calls: its last reply decides, when it
comes. -/
def Block.outcome (translator : Translator) (service : Service) (clock : Nat → Moment)
    (language : Text) (start : Nat) (block : Block) : Outcome :=
  translator.outcomeOf (clock (start + (block.calls language).length)) block.value language
    (block.reply service language start)

/-- A value that the service is asked for makes a block of calls, whose last reply decides. -/
theorem Treated.exists_settled {before after : Requests} {outcome : Outcome}
    (h : Treated translator service clock language before value outcome after)
    (hask : translator.asksFor before.asked value) (key : Text) :
    ∃ repeated, Block.Settled service language translator.options.allowedRetries
        before.calls.length ⟨key, value, repeated⟩ ∧
      outcome = Block.outcome translator service clock language before.calls.length
        ⟨key, value, repeated⟩ ∧
      after = ⟨true, before.calls ++ Block.calls language ⟨key, value, repeated⟩⟩ := by
  cases h with
  | unasked hn => exact absurd hask hn
  | translated _ h =>
    obtain ⟨repeated, hsettled, hreply, rfl⟩ := h.exists_settled key
    exact ⟨repeated, hsettled, by rw [Block.outcome, hreply, ← List.length_append]; rfl, rfl⟩
  | fallback _ h hphrase =>
    obtain ⟨repeated, hsettled, hreply, rfl⟩ := h.exists_settled key
    refine ⟨repeated, hsettled, ?_, rfl⟩
    rw [Block.outcome, hreply, ← List.length_append, Translator.outcomeOf, hphrase]
  | failed _ h hphrase =>
    obtain ⟨repeated, hsettled, hreply, rfl⟩ := h.exists_settled key
    refine ⟨repeated, hsettled, ?_, rfl⟩
    rw [Block.outcome, hreply, Translator.outcomeOf, hphrase]

theorem Treated.unsent {before after : Requests} {outcome : Outcome}
    (h : Treated translator service clock language before value outcome after)
    (hask : ¬ translator.asksFor before.asked value) :
    outcome = .untranslated ∧ after = before := by
  cases h with
  | unasked => exact ⟨rfl, rfl⟩
  | translated ha => exact absurd ha hask
  | fallback ha => exact absurd ha hask
  | failed ha => exact absurd ha hask

/-- The entries that the service is asked for: those with a value, and in testing mode only the first
of them. -/
def Translator.due (translator : Translator) (entries : List (Text × Text)) : List (Text × Text) :=
  let filled := entries.filter fun entry => entry.2 ≠ []
  if translator.options.testing then filled.take 1 else filled

/-- The entries still to be asked for. -/
def Translator.dueAfter (translator : Translator) (asked : Bool) (entries : List (Text × Text)) :
    List (Text × Text) :=
  if translator.options.testing && asked then [] else translator.due entries

theorem Translator.dueAfter_cons (translator : Translator) (asked : Bool) (key value : Text)
    (entries : List (Text × Text)) :
    (translator.asksFor asked value → translator.dueAfter asked ((key, value) :: entries) =
        (key, value) :: translator.dueAfter true entries) ∧
      (¬ translator.asksFor asked value → translator.dueAfter asked ((key, value) :: entries) =
        translator.dueAfter asked entries) := by
  unfold asksFor dueAfter due
  cases translator.options.testing <;> cases asked <;> by_cases hv : value = [] <;> simp [hv]

/-- The calls made for a file, told by the blocks they come in, and the outcomes they lead to. A block
begins behind the calls made earlier and those of the blocks in front of it. -/
structure Traffic (translator : Translator) (service : Service) (clock : Nat → Moment)
    (language : Text) (start : Nat) (blocks : List Block) (outcomes : List (Text × Outcome)) :
    Prop where
  settled : ∀ sent block rest, blocks = sent ++ block :: rest →
    let begins := start + (sent.flatMap (Block.calls language)).length
    block.Settled service language translator.options.allowedRetries begins ∧
      (block.key, block.outcome translator service clock language begins) ∈ outcomes
  others : ∀ key outcome, (key, outcome) ∈ outcomes → key ∉ blocks.map Block.key →
    outcome = .untranslated

namespace Traffic

variable {blocks : List Block} {outcomes : List (Text × Outcome)} {block : Block}

theorem nil : Traffic translator service clock language start [] [] where
  settled := by simp
  others := by simp

/-- An entry that is not asked for. -/
theorem unsent (h : Traffic translator service clock language start blocks outcomes) (key : Text) :
    Traffic translator service clock language start blocks ((key, .untranslated) :: outcomes) where
  settled := fun sent block rest hb =>
    have ⟨hsettled, hdecided⟩ := h.settled sent block rest hb
    ⟨hsettled, List.mem_cons_of_mem _ hdecided⟩
  others := fun other outcome hm hother => by
    rcases List.mem_cons.mp hm with he | hm
    · exact (Prod.mk.inj he).2
    · exact h.others other outcome hm hother

/-- One more block in front: the others begin behind its calls. -/
theorem cons
    (hblock : block.Settled service language translator.options.allowedRetries start)
    (h : Traffic translator service clock language (start + (block.calls language).length) blocks
      outcomes) :
    Traffic translator service clock language start (block :: blocks)
      ((block.key, block.outcome translator service clock language start) :: outcomes) where
  settled := fun sent other rest hb => by
    rcases sent with _ | ⟨first, sent⟩
    · obtain ⟨rfl, rfl⟩ := List.cons.inj hb
      exact ⟨hblock, List.mem_cons_self⟩
    · obtain ⟨rfl, hrest⟩ := List.cons.inj hb
      have hlater := h.settled sent other rest hrest
      rw [Nat.add_assoc, ← List.length_append, ← List.flatMap_cons] at hlater
      exact ⟨hlater.1, List.mem_cons_of_mem _ hlater.2⟩
  others := fun other outcome hm hother => by
    rw [List.map_cons, List.mem_cons, not_or] at hother
    rcases List.mem_cons.mp hm with he | hm
    · exact absurd (Prod.mk.inj he).1 hother.1
    · exact h.others other outcome hm hother.2

end Traffic

/-- The entries of a file make one block for each of them that is due. -/
theorem TreatedAll.exists_traffic {before after : Requests} {entries : List (Text × Text)}
    {outcomes : List (Text × Outcome)}
    (h : TreatedAll translator service clock language before entries outcomes after) :
    ∃ blocks, blocks.map (fun block : Block => (block.key, block.value)) =
        translator.dueAfter before.asked entries ∧
      Traffic translator service clock language before.calls.length blocks outcomes ∧
      after.calls = before.calls ++ blocks.flatMap (Block.calls language) := by
  induction h with
  | nil requests =>
    refine ⟨[], ?_, .nil, by simp⟩
    simp [Translator.dueAfter, Translator.due]
  | @cons before between after key value outcome entries outcomes first rest ih =>
    obtain ⟨blocks, hdue, htraffic, hcalls⟩ := ih
    obtain ⟨hasked, hunasked⟩ := translator.dueAfter_cons before.asked key value entries
    by_cases hask : translator.asksFor before.asked value
    · obtain ⟨repeated, hsettled, rfl, rfl⟩ := first.exists_settled hask key
      rw [List.length_append] at htraffic
      refine ⟨⟨key, value, repeated⟩ :: blocks, ?_, .cons hsettled htraffic, ?_⟩
      · rw [hasked hask, ← hdue, List.map_cons]
      · rw [hcalls, List.flatMap_cons, List.append_assoc]
    · obtain ⟨rfl, rfl⟩ := first.unsent hask
      exact ⟨blocks, hdue.trans (hunasked hask).symm, htraffic.unsent key, hcalls⟩

/-- The different keys of a file, each with its last value. -/
def lastValues (lines : List Line) : List (Text × Text) :=
  (firsts (pairKeys lines)).map fun key =>
    (key, (last? key (lines.filterMap Line.pair?)).getD [])

theorem entries_eq_lastValues (lines : List Line) : (entries lines).entries = lastValues lines := by
  refine OrderedMap.entries_eq_of_keys ?_ fun entry he => ?_
  · rw [keys_entries, lastValues, List.map_map]
    exact (List.map_id _).symm
  · obtain ⟨key, hkey, rfl⟩ := List.mem_map.mp he
    have hlast : (entries lines).get? key = last? key (lines.filterMap Line.pair?) :=
      OrderedMap.get?_ofList _ _
    rw [OrderedMap.mem_firsts, ← contains_entries_iff, OrderedMap.contains_iff] at hkey
    obtain ⟨value, hvalue⟩ := OrderedMap.get?_of_mem_keys hkey
    rw [hvalue, ← hlast, hvalue]
    rfl

theorem Traffic.repeated_le {blocks : List Block} {outcomes : List (Text × Outcome)}
    (h : Traffic translator service clock language start blocks outcomes) {block : Block}
    (hm : block ∈ blocks) : block.repeated ≤ translator.options.allowedRetries := by
  obtain ⟨sent, rest, hb⟩ := List.append_of_mem hm
  exact (h.settled sent block rest hb).1.repeated_le

/-- Localizing a file makes exactly these calls, whatever was sent before. They come in blocks, one for
each different key whose last value is not empty, in the order of the keys, and in testing mode only
for the first of these. Each block repeats the value of its key while the faults pass and repetitions
are left, with none left in testing mode, and the last reply to it decides what becomes of the key;
all other keys are left untranslated. The lines and the report follow from that, however the writing
ends. Where the source or the earlier target cannot be read nothing is sent. -/
theorem translateFile_calls (translator : Translator) (source : Path) (locale : Locale)
    (target : Path) (before : World) :
    let ran := (translator.translateFile source locale target).run before
    (∀ content earlier, before.text? source = some content →
      (PropertyFile.readEntries target).runOn before = (.ok earlier, before) →
      let lines := parse content
      ∃ blocks : List Block, ∃ outcomes : OrderedMap Text Outcome,
        blocks.map (fun block => (block.key, block.value)) = translator.due (lastValues lines) ∧
        ran.2.calls = before.calls ++ blocks.flatMap (Block.calls locale.language) ∧
        Traffic translator before.service before.clock locale.language before.calls.length blocks
          outcomes.entries ∧
        (∀ block ∈ blocks, block.repeated ≤ translator.options.retries ∧
          (translator.options.testing = true → block.repeated = 0)) ∧
        outcomes.keys = firsts (pairKeys lines) ∧
        ∃ written, (PropertyFile.write target (linesFor lines earlier outcomes)).runOn
            { before with calls := ran.2.calls } = (written, ran.2) ∧
          ran.1.result = written.map fun _ =>
            report target (entries lines) earlier outcomes.entries) ∧
    ((∀ content earlier, before.text? source = some content →
        (PropertyFile.readEntries target).runOn before ≠ (.ok earlier, before)) →
      ran.2.calls = before.calls) := by
  intro ran
  refine ⟨fun content earlier hcontent hearlier => ?_, fun hunread => ?_⟩
  · intro lines
    obtain ⟨found, requests, written, htreated, hwrote, hattempt⟩ :=
      translateFile_of_inputs hcontent hearlier (Prod.eta ran).symm
    obtain ⟨outcomes, rfl, hkeys⟩ := htreated.exists_map
    obtain ⟨blocks, hdue, htraffic, hcalls⟩ := htreated.exists_traffic
    have hoff : World.OffTree World.calls := fun _ _ => rfl
    have hsent : ran.2.calls = requests.calls :=
      (PropertyFile.keeps_write (hoff.spared [target]) _).ran hwrote
    refine ⟨blocks, outcomes, ?_, hsent.trans hcalls, htraffic, fun block hm => ?_,
      hkeys.trans (keys_entries lines), written, ?_, congrArg Attempt.result hattempt⟩
    · rw [hdue, entries_eq_lastValues, Translator.dueAfter, Bool.and_false, if_neg (by decide)]
    · have hle := htraffic.repeated_le hm
      unfold Options.allowedRetries at hle
      split at hle
      · exact ⟨Nat.le_trans hle (Nat.zero_le _), fun _ => Nat.le_zero.mp hle⟩
      · next hplain => exact ⟨hle, fun ht => absurd ht hplain⟩
    · rw [hsent, ← targetLines_eq lines earlier hkeys]
      exact hwrote
  · rcases translateFile_ends (Prod.eta ran).symm with ⟨failure, -, hafter⟩ |
      ⟨content, earlier, _, _, _, hcontent, hearlier, -⟩
    · rw [hafter]
    · exact absurd hearlier (hunread content earlier hcontent)

theorem translateFile_calls_page :
    let before := sampleWorld "k=a\nm=c\nk=b\ne=\n".toList "m=d\nx=y\n".toList
      (failingService " t ".toList)
    let after := ((sampleTranslator.translateFile sampleSource spanish sampleTarget).run before).2
    after.calls = [("b".toList, "es".toList), ("b".toList, "es".toList),
      ("c".toList, "es".toList)] := by
  intro before after
  have hcontent : before.text? sampleSource = some "k=a\nm=c\nk=b\ne=\n".toList := by
    decide +kernel
  have htarget : before.text? sampleTarget = some "m=d\nx=y\n".toList := by decide +kernel
  obtain ⟨blocks, outcomes, hdue, hcalls, htraffic, hrepeated, -⟩ :=
    (translateFile_calls sampleTranslator sampleSource spanish sampleTarget before).1 _ _ hcontent
      (PropertyFile.readEntries_eq_ok.mpr ⟨rfl, .inr ⟨_, htarget, rfl⟩⟩)
  have hlist : sampleTranslator.due (lastValues (parse "k=a\nm=c\nk=b\ne=\n".toList)) =
      [("k".toList, "b".toList), ("m".toList, "c".toList)] := by decide +kernel
  obtain ⟨⟨_, _, twice⟩, others, rfl, hfirst, hothers⟩ := List.map_eq_cons_iff.mp (hdue.trans hlist)
  obtain ⟨⟨_, _, once⟩, none, rfl, hsecond, hnone⟩ := List.map_eq_cons_iff.mp hothers
  obtain rfl := List.map_eq_nil_iff.mp hnone
  obtain ⟨rfl, rfl⟩ := Prod.mk.inj hfirst
  obtain ⟨rfl, rfl⟩ := Prod.mk.inj hsecond
  -- The first call meets a passing fault, and no later one does.
  have htwice : twice = 1 := by
    have hle : twice ≤ 1 := (hrepeated _ List.mem_cons_self).1
    have hlast := (htraffic.settled [] _ _ rfl).1.last
    rcases Nat.le_one_iff_eq_zero_or_eq_one.mp hle with rfl | rfl
    · exact hlast (Or.inr (by decide))
    · rfl
  subst htwice
  have honce : once = 0 := by
    by_contra hne
    exact (htraffic.settled [_] _ [] rfl).1.passing 0 (Nat.pos_of_ne_zero hne) |>.elim
      (by decide) (by decide)
  subst honce
  exact hcalls

end MessageKeys.Localization
