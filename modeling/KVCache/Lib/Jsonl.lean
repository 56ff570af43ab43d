import Mathlib.Data.List.DropRight
import Mathlib.Data.List.Nodup

namespace KVCache.Lib

-- What a flat JSON object has under its keys.
inductive JsonValue where
  | bool (b : Bool)
  | number (n : Nat)
  | string (s : String)
  | numbers (ns : List Nat)
deriving DecidableEq, Repr

-- The fields of an object. Their order says nothing.
abbrev JsonObject := List (String × JsonValue)

namespace JsonObject

variable {o o' : JsonObject} {key : String} {v : JsonValue}

def get (o : JsonObject) (key : String) : Option JsonValue :=
  (o.find? fun field => field.1 = key).map fun field => field.2

abbrev WellFormed (o : JsonObject) : Prop := (o.map fun field => field.1).Nodup

theorem get_eq_some_iff (h : o.WellFormed) : o.get key = some v ↔ (key, v) ∈ o := by
  rw [get]
  induction o with
  | nil => simp
  | cons field o ih =>
      obtain ⟨hnot, hrest⟩ := List.nodup_cons.mp h
      by_cases hkey : field.1 = key
      · rw [List.find?_cons_of_pos (by simpa using hkey), Option.map_some, List.mem_cons]
        subst hkey
        constructor
        · intro hv
          exact .inl (Prod.ext rfl (Option.some.inj hv).symm)
        · rintro (heq | hmem)
          · rw [← heq]
          · exact absurd (List.mem_map_of_mem hmem) hnot
      · rw [List.find?_cons_of_neg (by simpa using hkey), ih hrest, List.mem_cons]
        constructor
        · exact .inr
        · exact fun hmem => hmem.resolve_left fun heq => hkey (by rw [← heq])

-- Objects with the same fields read the same.
theorem get_perm (h : o.WellFormed) (hperm : o'.Perm o) : o'.get = o.get := by
  funext key
  have h' : o'.WellFormed := (hperm.map _).nodup_iff.mpr h
  apply Option.ext
  intro v
  rw [get_eq_some_iff h', get_eq_some_iff h, hperm.mem_iff]

end JsonObject

-- A line for each object.
def writeLine (dump : JsonObject → List Char) (out : List Char) (o : JsonObject) : List Char :=
  out ++ dump o ++ ['\n']

def newline (c : Char) : Bool := c = '\n' ∨ c = '\r'

def strip (line : List Char) : List Char :=
  (line.dropWhile Char.isWhitespace).rdropWhile Char.isWhitespace

-- What a reader gets that goes through a text line by line and passes over the lines that
-- are blank or cannot be parsed.
def loadLines (loads : List Char → Option JsonObject) (text : List Char) : List JsonObject :=
  (((text.splitOnP newline).map strip).filter (· ≠ [])).filterMap loads

-- Every line of the text is finished.
def Lines (text : List Char) : Prop := text = [] ∨ text.getLast? = some '\n'

-- What a JSON library does with an object: the text is one line, starts and ends with a
-- brace, and can be parsed again; the text without its end cannot.
structure Dumps (dump : JsonObject → List Char) (loads : List Char → Option JsonObject)
    (o : JsonObject) : Prop where
  oneLine : ∀ c ∈ dump o, newline c = false
  braces : ∃ body, dump o = '\x7b' :: (body ++ ['\x7d'])
  again : ∃ o', loads (dump o) = some o' ∧ o'.Perm o
  cut : ∀ n < (dump o).length, loads (strip ((dump o).take n)) = none

variable {dump : JsonObject → List Char} {loads : List Char → Option JsonObject}

theorem Dumps.strip {o : JsonObject} (h : Dumps dump loads o) : strip (dump o) = dump o := by
  obtain ⟨body, hbody⟩ := h.braces
  have hfront : (dump o).dropWhile Char.isWhitespace = dump o := by
    rw [hbody]
    exact List.dropWhile_cons_of_neg (by decide)
  rw [Lib.strip, hfront, hbody, ← List.cons_append]
  apply List.rdropWhile_concat_neg
  decide

private theorem loadLines_cons (line text : List Char) :
    loadLines loads (line ++ '\n' :: text) = loadLines loads line ++ loadLines loads text := by
  rw [loadLines, List.splitOnP_append_cons line text rfl, List.map_append, List.filter_append,
    List.filterMap_append]
  rfl

-- What is behind finished lines is read after them.
theorem Lines.loadLines_append {before : List Char} (h : Lines before) (text : List Char) :
    loadLines loads (before ++ text) = loadLines loads before ++ loadLines loads text := by
  have hnil : loadLines loads [] = [] := by simp [loadLines, Lib.strip]
  rcases h with rfl | hlast
  · rw [List.nil_append, hnil, List.nil_append]
  · obtain ⟨body, rfl⟩ := List.getLast?_eq_some_iff.mp hlast
    rw [List.append_assoc, List.singleton_append, loadLines_cons, loadLines_cons, hnil,
      List.append_nil]

-- A line that was cut off is passed over, one that was not is read.
private theorem loadLines_line {o : JsonObject} (h : Dumps dump loads o) (n : Nat) :
    loadLines loads ((dump o).take n) = if n < (dump o).length then [] else
      loadLines loads (dump o) := by
  split
  · rename_i hn
    have hsplit : ((dump o).take n).splitOnP newline = [(dump o).take n] :=
      List.splitOnP_eq_singleton fun c hc => h.oneLine c (List.mem_of_mem_take hc)
    rw [loadLines, hsplit, List.map_singleton, List.filter_singleton]
    cases hblank : decide (Lib.strip ((dump o).take n) ≠ [])
    · rfl
    · rw [cond_true, List.filterMap_cons_none (h.cut n hn), List.filterMap_nil]
  · rw [List.take_of_length_le (by omega)]

private theorem loadLines_dump {o : JsonObject} (h : Dumps dump loads o) :
    ∃ o', loadLines loads (dump o) = [o'] ∧ o'.Perm o := by
  obtain ⟨o', hloads, hperm⟩ := h.again
  obtain ⟨body, hbody⟩ := h.braces
  have hsplit : (dump o).splitOnP newline = [dump o] := List.splitOnP_eq_singleton h.oneLine
  refine ⟨o', ?_, hperm⟩
  have hkeep : decide (dump o ≠ []) = true := by simp [hbody]
  rw [loadLines, hsplit, List.map_singleton, h.strip, List.filter_singleton, hkeep, cond_true,
    List.filterMap_cons_some hloads, List.filterMap_nil]

private theorem foldl_writeLine (os : List JsonObject) (out : List Char) :
    os.foldl (writeLine dump) out = out ++ os.flatMap fun o => dump o ++ ['\n'] := by
  induction os generalizing out with
  | nil => simp
  | cons o os ih => rw [List.foldl_cons, ih, writeLine, List.flatMap_cons]; simp

-- A text that is written line by line is read line by line. Where its end is missing, the
-- first of its lines are read.
theorem loadLines_written {os : List JsonObject} (h : ∀ o ∈ os, Dumps dump loads o) (n : Nat) :
    ∃ k, List.Forall₂ (fun o' o => o'.Perm o)
      (loadLines loads ((os.foldl (writeLine dump) []).take n)) (os.take k) ∧
      ((os.foldl (writeLine dump) []).length ≤ n → os.length ≤ k) := by
  rw [foldl_writeLine, List.nil_append]
  induction os generalizing n with
  | nil => exact ⟨0, by simp [loadLines, strip], fun _ => Nat.le_refl _⟩
  | cons o os ih =>
      have ho := h o List.mem_cons_self
      obtain ⟨o', hdump, hperm⟩ := loadLines_dump ho
      rw [List.flatMap_cons, List.append_assoc, List.singleton_append]
      by_cases hn : n ≤ (dump o).length
      · rw [List.take_append_of_le_length hn, loadLines_line ho]
        split
        · exact ⟨0, .nil, by simp; omega⟩
        · rw [hdump]
          exact ⟨1, .cons hperm (by simp), by simp; omega⟩
      · obtain ⟨m, rfl⟩ : ∃ m, n = (dump o).length + (m + 1) :=
          ⟨n - (dump o).length - 1, by omega⟩
        obtain ⟨k, hk, hall⟩ := ih (fun o' ho' => h o' (List.mem_cons_of_mem _ ho')) m
        rw [List.take_length_add_append, List.take_succ_cons, loadLines_cons, hdump]
        refine ⟨k + 1, .cons hperm hk, fun hlen => ?_⟩
        have hrest := hall (by simp at hlen ⊢; omega)
        simpa using hrest

-- A format that writes its values as objects and reads them from the fields.
structure JsonFormat (α : Type*) where
  toJson : α → JsonObject
  ofFields : (String → Option JsonValue) → Option α
  wellFormed : ∀ x, (toJson x).WellFormed
  lawful : ∀ x, ofFields (toJson x).get = some x

namespace JsonFormat

variable {α : Type*} (F : JsonFormat α)

-- The file of a log, one line for each of its values, after what was there.
def write (dump : JsonObject → List Char) (out : List Char) (log : List α) : List Char :=
  log.foldl (fun out x => writeLine dump out (F.toJson x)) out

def readBack (loads : List Char → Option JsonObject) (text : List Char) : List (Option α) :=
  (loadLines loads text).map fun o => F.ofFields o.get

private theorem map_ofFields {os : List JsonObject} {log : List α}
    (h : List.Forall₂ (fun o' o => o'.Perm o) os (log.map F.toJson)) :
    os.map (fun o => F.ofFields o.get) = log.map some := by
  induction log generalizing os with
  | nil =>
      cases h
      rfl
  | cons x log ih =>
      cases h with
      | cons hperm hrest =>
          rw [List.map_cons, List.map_cons, ih hrest, JsonObject.get_perm (F.wellFormed x) hperm,
            F.lawful]

private theorem write_eq (out : List Char) (log : List α) :
    F.write dump out log = out ++ (log.map F.toJson).foldl (writeLine dump) [] := by
  have hfold : F.write dump out log = (log.map F.toJson).foldl (writeLine dump) out :=
    List.foldl_map.symm
  rw [hfold, foldl_writeLine, foldl_writeLine _ [], List.nil_append]

variable {F} {log : List α} {out : List Char}

-- The file of a log gives what was there and the log, and as much of it as there is gives a
-- first part of the log.
theorem round_trip (hout : Lines out) (h : ∀ x ∈ log, Dumps dump loads (F.toJson x)) :
    F.readBack loads (F.write dump out log) = F.readBack loads out ++ log.map some ∧
      ∀ n, ∃ k, F.readBack loads ((F.write dump out log).take (out.length + n)) =
        F.readBack loads out ++ (log.take k).map some := by
  have hread : ∀ n, ∃ k, F.readBack loads ((F.write dump out log).take (out.length + n)) =
      F.readBack loads out ++ (log.take k).map some ∧
        ((F.write dump out log).length ≤ out.length + n → log.length ≤ k) := by
    intro n
    have hos : ∀ o ∈ log.map F.toJson, Dumps dump loads o := fun o ho => by
      obtain ⟨x, hx, rfl⟩ := List.mem_map.mp ho
      exact h x hx
    obtain ⟨k, hk, hall⟩ := loadLines_written hos n
    rw [← List.map_take] at hk
    rw [List.length_map] at hall
    rw [F.write_eq, List.take_length_add_append, readBack, hout.loadLines_append, List.map_append,
      F.map_ofFields hk, List.length_append, Nat.add_le_add_iff_left]
    exact ⟨k, rfl, hall⟩
  refine ⟨?_, fun n => ?_⟩
  · obtain ⟨k, hk, hall⟩ := hread (F.write dump out log).length
    rwa [List.take_of_length_le (by omega), List.take_of_length_le (hall (by omega))] at hk
  · obtain ⟨k, hk, -⟩ := hread n
    exact ⟨k, hk⟩

end JsonFormat

end KVCache.Lib
