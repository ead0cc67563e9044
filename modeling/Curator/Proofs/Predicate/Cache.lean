import Curator.Proofs.Predicate.Evaluator
import Mathlib.Data.Finset.Card
import Mathlib.Data.Finset.Dedup

/-! # Calls to a cache of predicates

After any calls a cache holds, once each, the sources called so far that can be read, every one
with what reading it gives. So nobody can tell from the answers whether there is a cache, and its
size is the number of these sources.
-/

namespace Curator.Predicate

/-! ## Calls -/

inductive Call where
  | compile (source : String)
  | evaluate (source : String) (document : Json) (index : Option Nat)

inductive Answer where
  | compiled (result : Except Failure Compiled)
  | value (result : Except Failure Bool)

namespace Call

def source : Call → String
  | compile source => source
  | evaluate source _ _ => source

/-- The answer that reading the source anew gives. -/
def answer : Call → Answer
  | compile source => .compiled (parse source)
  | evaluate source document index => .value (Predicate.evaluate source document index)

def readable (calls : List Call) : Finset String :=
  (calls.map source).toFinset.filter fun source => (parse source).isOk

theorem mem_readable {calls : List Call} {source : String} :
    source ∈ readable calls ↔ source ∈ calls.map Call.source ∧ (parse source).isOk = true := by
  rw [readable, Finset.mem_filter, List.mem_toFinset]

end Call

namespace Cache

variable {cache : Cache} {source other : String} {calls : List Call}

def serve (cache : Cache) : Call → Answer × Cache
  | .compile source => (.compiled (cache.compile source).1, (cache.compile source).2)
  | .evaluate source document index =>
    (.value (cache.evaluate source document index).1, (cache.evaluate source document index).2)

def after (cache : Cache) (calls : List Call) : Cache :=
  calls.foldl (fun cache call => (cache.serve call).2) cache

@[simp] theorem serve_snd (cache : Cache) (call : Call) :
    (cache.serve call).2 = (cache.compile call.source).2 := by
  cases call <;> rfl

/-! ## One call -/

/-- A cache stays as it is, or it takes up a source that it has just read. -/
theorem compile_cases (cache : Cache) (source : String) :
    (cache.compile source).2 = cache ∧
        ((parse source).isOk = true → source ∈ Members.keys cache.entries) ∨
      ∃ p, parse source = .ok p ∧
        (cache.compile source).2 = ⟨Members.insert source p cache.entries⟩ := by
  unfold compile
  split
  · next p hp =>
      exact .inl ⟨rfl, fun _ => Members.isSome_get?_iff.mp (Option.isSome_of_eq_some hp)⟩
  · split
    · next p hparse => exact .inr ⟨p, hparse, rfl⟩
    · next e hparse =>
        refine .inl ⟨rfl, fun hok => ?_⟩
        rw [hparse] at hok
        cases hok

theorem distinct_compile (h : Members.Distinct cache.entries) (source : String) :
    Members.Distinct (cache.compile source).2.entries := by
  rcases cache.compile_cases source with ⟨heq, -⟩ | ⟨p, -, heq⟩
  · rw [heq]
    exact h
  · rw [heq]
    exact h.insert source p

/-- The source of a call is among those held from then on just if it can be read. -/
theorem mem_keys_compile :
    other ∈ Members.keys (cache.compile source).2.entries ↔
      other ∈ Members.keys cache.entries ∨ other = source ∧ (parse other).isOk = true := by
  rcases cache.compile_cases source with ⟨heq, hknown⟩ | ⟨p, hparse, heq⟩
  · rw [heq]
    refine ⟨.inl, fun hor => hor.elim id ?_⟩
    rintro ⟨rfl, hok⟩
    exact hknown hok
  · have hok : (parse source).isOk = true := by rw [hparse]; rfl
    rw [heq, ← Members.isSome_get?_iff, Members.get?_insert]
    by_cases hother : other = source
    · subst hother
      simp [hok]
    · simp [hother, Members.isSome_get?_iff]

theorem Sound.serve_fst (h : cache.Sound) (call : Call) : (cache.serve call).1 = call.answer := by
  cases call with
  | compile source => exact congrArg Answer.compiled (h.compile_eq source)
  | evaluate source document index =>
      exact congrArg Answer.value (Evaluator.answers_cached.answer_eq source document index h)

/-! ## A source that cannot be read -/

theorem Sound.get?_of_error (h : cache.Sound) {e : Failure} (he : parse source = .error e) :
    Members.get? source cache.entries = none := by
  rw [Option.eq_none_iff_forall_ne_some]
  intro p hp
  cases he.symm.trans (h source p hp)

theorem Sound.compile_of_error (h : cache.Sound) {e : Failure} (he : parse source = .error e) :
    cache.compile source = (.error e, cache) := by
  rw [Cache.compile, h.get?_of_error he, he]

theorem Sound.evaluate_of_error (h : cache.Sound) {e : Failure} (he : parse source = .error e)
    (document : Json) (index : Option Nat) :
    cache.evaluate source document index = (.error e, cache) := by
  rw [Cache.evaluate, h.compile_of_error he]
  rfl

/-! ## Any number of calls -/

/-- A cache holds, once each, the sources in some calls that can be read. -/
structure Records (cache : Cache) (calls : List Call) : Prop where
  sound : cache.Sound
  distinct : Members.Distinct cache.entries
  mem_keys_iff : ∀ source, source ∈ Members.keys cache.entries ↔ source ∈ Call.readable calls

theorem records_empty : empty.Records [] where
  sound := sound_empty
  distinct := Members.distinct_nil
  mem_keys_iff := by simp [empty, Call.readable]

theorem Records.serve (h : cache.Records calls) (call : Call) :
    (cache.serve call).2.Records (calls ++ [call]) := by
  rw [serve_snd]
  refine ⟨h.sound.compile call.source, distinct_compile h.distinct call.source, fun source => ?_⟩
  rw [mem_keys_compile, h.mem_keys_iff, Call.mem_readable, Call.mem_readable]
  simp [or_and_right]

theorem Records.after (h : cache.Records calls) (more : List Call) :
    (cache.after more).Records (calls ++ more) := by
  induction more generalizing cache calls with
  | nil => rwa [List.append_nil]
  | cons call rest ih => simpa [Cache.after] using ih (h.serve call)

theorem Records.size_eq (h : cache.Records calls) : cache.size = (Call.readable calls).card := by
  have hsources : (Members.keys cache.entries).toFinset = Call.readable calls := by
    ext source
    rw [List.mem_toFinset, h.mem_keys_iff]
  rw [← hsources, List.toFinset_card_of_nodup h.distinct, Members.length_keys]
  rfl

/-- Whatever was called before, a call to a cache is answered as if there was none. The cache then
holds as many sources as were called so far and can be read. A source that cannot be read is never
held, and each call for it fails in the same way. -/
theorem serve_after (calls : List Call) (call : Call) :
    let cache := empty.after calls
    let next := (cache.serve call).2
    (cache.serve call).1 = call.answer ∧
      next.size = (Call.readable (calls ++ [call])).card ∧
      ∀ source e, parse source = .error e →
        Members.get? source next.entries = none ∧
        next.compile source = (.error e, next) ∧
        ∀ document index, next.evaluate source document index = (.error e, next) := by
  intro cache next
  have hcache : cache.Records calls := records_empty.after calls
  have hnext : next.Records (calls ++ [call]) := hcache.serve call
  refine ⟨hcache.sound.serve_fst call, hnext.size_eq, fun source e he => ?_⟩
  exact ⟨hnext.sound.get?_of_error he, hnext.sound.compile_of_error he,
    fun document index => hnext.sound.evaluate_of_error he document index⟩

/-- The cache has the source of the call from an earlier one, and has not kept the one that cannot
be read. -/
theorem serve_after_of_repeated :
    let cache := empty.after [.compile "index", .evaluate "!" .null none]
    let call := Call.evaluate "index" .null (some 1)
    (cache.serve call).1 = .value (.ok true) ∧ (cache.serve call).2.size = 1 ∧
      Members.get? "!" (cache.serve call).2.entries = none := by
  intro cache call
  have hfresh : call.answer = .value (.ok true) := by
    simp only [call, Call.answer, Answer.value.injEq]
    decide +kernel
  have hreadable : (Call.readable
      ([.compile "index", .evaluate "!" .null none] ++ [call])).card = 1 := by
    simp only [call]
    decide +kernel
  have hfails : parse "!" = .error (.parse 1 .expectedExpression) := by
    rfl
  obtain ⟨hanswer, hsize, hnone⟩ := serve_after [.compile "index", .evaluate "!" .null none] call
  exact ⟨hanswer.trans hfresh, hsize.trans hreadable, (hnone _ _ hfails).1⟩

end Cache

end Curator.Predicate
