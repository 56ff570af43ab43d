import KVCache.Sim.EventSink

namespace KVCache.Sim

open Lib

def Decision.toJson : Decision → JsonObject
  | .EvictionDecision chosen_block policy_name candidates ns =>
      [("event", .string "eviction_decision"), ("policy", .string policy_name),
        ("chosen_block", .number chosen_block), ("candidates", .numbers candidates),
        ("timestamp_ns", .number ns)]
  | .AdmissionRecord admitted policy_name candidate_hash ns =>
      [("event", .string "admission_decision"), ("policy", .string policy_name),
        ("admitted", .bool admitted), ("hash_lo", .number candidate_hash.lo.toNat),
        ("hash_hi", .number candidate_hash.hi.toNat), ("timestamp_ns", .number ns)]

-- `JsonlDecisionLogger::log`, with the text that the logger has written so far.
def JsonlDecisionLogger.log (dump : JsonObject → List Char) (out : List Char)
    (decision : Decision) : List Char := writeLine dump out decision.toJson

section Reader

variable (fields : String → Option JsonValue)

def numbersAt (key : String) : Option (List Nat) :=
  match fields key with
  | some (.numbers ns) => some ns
  | _ => none

def boolAt (key : String) : Option Bool :=
  match fields key with
  | some (.bool b) => some b
  | _ => none

-- The decision that the fields of an object tell of.
def readDecision : Option Decision := do
  let ns ← numberAt fields "timestamp_ns"
  let policy_name ← stringAt fields "policy"
  match ← stringAt fields "event" with
  | "eviction_decision" =>
      let chosen_block ← numberAt fields "chosen_block"
      let candidates ← numbersAt fields "candidates"
      return .EvictionDecision chosen_block policy_name candidates ns
  | "admission_decision" =>
      let admitted ← boolAt fields "admitted"
      let candidate_hash ← hashAt fields
      return .AdmissionRecord admitted policy_name candidate_hash ns
  | _ => none

end Reader

theorem readDecision_toJson (decision : Decision) :
    readDecision decision.toJson.get = some decision := by
  cases decision <;>
    simp [Decision.toJson, readDecision, JsonObject.get, numberAt, numbersAt, stringAt, boolAt,
      hashAt]

abbrev JsonlDecisionLogger.format : JsonFormat Decision where
  toJson := Decision.toJson
  ofFields := readDecision
  wellFormed decision := by cases decision <;> simp [Decision.toJson, JsonObject.WellFormed]
  lawful := readDecision_toJson

variable {dump : JsonObject → List Char} {loads : List Char → Option JsonObject}
  {events : List SinkEvent} {decisions : List Decision} {eventFile decisionFile : List Char}

-- The file of a sink and that of a logger hold all that was recorded and logged, after the
-- lines that were there: a reader who takes them line by line gets every event and every
-- decision with its data, in order, and from a file whose end is missing a first part of them.
theorem jsonl_round_trip (hevents : ∀ e ∈ events, Dumps dump loads (serializeEvent e))
    (hdecisions : ∀ d ∈ decisions, Dumps dump loads d.toJson) (heventFile : Lines eventFile)
    (hdecisionFile : Lines decisionFile) :
    let readEvents text := (loadLines loads text).map fun o => readEvent o.get
    let readDecisions text := (loadLines loads text).map fun o => readDecision o.get
    let eventText := events.foldl (JsonlEventSink.record dump) eventFile
    let decisionText := decisions.foldl (JsonlDecisionLogger.log dump) decisionFile
    readEvents eventText = readEvents eventFile ++ events.map some ∧
    readDecisions decisionText = readDecisions decisionFile ++ decisions.map some ∧
    (∀ n, ∃ k, readEvents (eventText.take (eventFile.length + n)) =
      readEvents eventFile ++ (events.take k).map some) ∧
    ∀ n, ∃ k, readDecisions (decisionText.take (decisionFile.length + n)) =
      readDecisions decisionFile ++ (decisions.take k).map some := by
  obtain ⟨hall, hpart⟩ := JsonFormat.round_trip (F := JsonlEventSink.format) heventFile hevents
  obtain ⟨hall', hpart'⟩ :=
    JsonFormat.round_trip (F := JsonlDecisionLogger.format) hdecisionFile hdecisions
  exact ⟨hall, hall', hpart, hpart'⟩

private abbrev sampleEvent : SinkEvent := .LookupHit 1 100

private abbrev sampleDecision : Decision := .EvictionDecision 1 "lru" [0, 1] 5

-- The texts of two objects, and what a parser makes of these.
private abbrev eventText : List Char :=
  '\x7b' :: ("\"block_id\":1,\"timestamp_ns\":100,\"type\":\"lookup_hit\"".toList ++ ['\x7d'])

private abbrev decisionText : List Char :=
  '\x7b' :: ("\"candidates\":[0,1],\"chosen_block\":1,\"event\":\"eviction_decision\",".toList ++
    "\"policy\":\"lru\",\"timestamp_ns\":5".toList ++ ['\x7d'])

private abbrev sampleDump (o : JsonObject) : List Char :=
  if o = serializeEvent sampleEvent then eventText else decisionText

private abbrev sampleLoads (text : List Char) : Option JsonObject :=
  if text = eventText then
    some [("block_id", .number 1), ("timestamp_ns", .number 100), ("type", .string "lookup_hit")]
  else if text = decisionText then
    some [("candidates", .numbers [0, 1]), ("chosen_block", .number 1),
      ("event", .string "eviction_decision"), ("policy", .string "lru"),
      ("timestamp_ns", .number 5)]
  else none

private theorem oneLine_of_all {text : List Char} (h : text.all (fun c => !newline c) = true) :
    ∀ c ∈ text, newline c = false := by
  intro c hc
  rw [← Bool.not_eq_true']
  exact List.all_eq_true.mp h c hc

private theorem sampleEvent_dumps : Dumps sampleDump sampleLoads (serializeEvent sampleEvent) := by
  have hdump : sampleDump (serializeEvent sampleEvent) = eventText := if_pos rfl
  refine ⟨?_, ?_, ?_, ?_⟩ <;> rw [hdump]
  · exact oneLine_of_all (by decide +kernel)
  · exact ⟨_, rfl⟩
  · exact ⟨_, if_pos rfl, by decide +kernel⟩
  · decide +kernel

private theorem sampleDecision_text : sampleDump sampleDecision.toJson = decisionText := by
  have hne : sampleDecision.toJson ≠ serializeEvent sampleEvent := by
    intro h
    cases congrArg List.length h
  exact if_neg hne

private theorem sampleDecision_dumps : Dumps sampleDump sampleLoads sampleDecision.toJson := by
  refine ⟨?_, ?_, ?_, ?_⟩ <;> rw [sampleDecision_text]
  · exact oneLine_of_all (by decide +kernel)
  · exact ⟨_, rfl⟩
  · exact ⟨_, rfl, by decide +kernel⟩
  · decide +kernel

-- An event in a new file, and a decision behind another one and a line that says nothing.
theorem jsonl_round_trip_samples :
    (loadLines sampleLoads ([sampleEvent].foldl (JsonlEventSink.record sampleDump) [])).map
        (fun o => readEvent o.get) = [some sampleEvent] ∧
      (loadLines sampleLoads ([sampleDecision].foldl (JsonlDecisionLogger.log sampleDump)
        (decisionText ++ ['\n', '-', '\n']))).map (fun o => readDecision o.get) =
          [some sampleDecision, some sampleDecision] := by
  have hevents : ∀ e ∈ [sampleEvent], Dumps sampleDump sampleLoads (serializeEvent e) :=
    List.forall_mem_singleton.mpr sampleEvent_dumps
  have hdecisions : ∀ d ∈ [sampleDecision], Dumps sampleDump sampleLoads d.toJson :=
    List.forall_mem_singleton.mpr sampleDecision_dumps
  have hlines : Lines (decisionText ++ ['\n', '-', '\n']) := .inr (by simp)
  obtain ⟨hread, hfirst, -⟩ := jsonl_round_trip hevents hdecisions (.inl rfl) (.inl rfl)
  obtain ⟨-, hsecond, -⟩ := jsonl_round_trip hevents hdecisions (.inl rfl) hlines
  -- what was there is a file with that decision alone, and the line that says nothing
  have hbefore : decisionText ++ ['\n', '-', '\n'] =
      [sampleDecision].foldl (JsonlDecisionLogger.log sampleDump) [] ++ ['-', '\n'] := by
    simp only [List.foldl_cons, List.foldl_nil, JsonlDecisionLogger.log, writeLine,
      sampleDecision_text, List.nil_append, List.append_assoc, List.cons_append]
  have hfile : Lines ([sampleDecision].foldl (JsonlDecisionLogger.log sampleDump) []) :=
    .inr (by simp [JsonlDecisionLogger.log, writeLine])
  have hnothing : loadLines sampleLoads ['-', '\n'] = [] := by decide +kernel
  have hold : (loadLines sampleLoads (decisionText ++ ['\n', '-', '\n'])).map
      (fun o => readDecision o.get) = [some sampleDecision] := by
    rw [hbefore, hfile.loadLines_append, hnothing, List.append_nil]
    exact hfirst
  exact ⟨hread, hsecond.trans (congrArg (· ++ [some sampleDecision]) hold)⟩

end KVCache.Sim
