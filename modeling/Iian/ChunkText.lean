import Iian.Characters
import Iian.Streaming

/- Whether a chunk of a text is a text of its own. -/
namespace Iian

open List
open Lib.Utf8 (isTail Valid)

variable {M : Model}

variable {r next : Request M}

namespace Request

/-- Wherever `deliver` has cut the text, by the number of bytes that could start a stop
string, it has cut before a byte that starts a character. A chunk tells how many tokens had
been sampled when it was delivered, and only the last one comes from `finish`. -/
def DeliversWhole (r : Request M) : Prop :=
  ∀ chunk ∈ r.out.dropLast,
    ∀ byte ∈ (M.spell r.params (r.outputs.take chunk.nOutputTokens)).1[
      (M.spell r.params (r.outputs.take chunk.nOutputTokens)).1.length - r.holdback]?,
      isTail byte = false

instance (r : Request M) : Decidable r.DeliversWhole :=
  @List.decidableBAll _ _ (fun _ => Option.decidableForallMem _) _

/-- The final text of a request is a part of what its tokens spell. -/
theorem Closing.text_leads {why : FinishReason} (closing : Closing r next why) :
    next.text ++ next.pending <+: M.detokenized next.params next.outputs := by
  have goes : ∀ gen : Gen M, gen.Going →
      gen.text ++ gen.pending <+: M.detokenized gen.params gen.outputs := by
    intro gen going
    rw [going.detokenized]
  rcases closing.how with ⟨same, _⟩ | ⟨gen, token, going, params, _, outputs, closes⟩
  · rw [same]
    exact goes _ closing.streams.going
  have whole : (gen.append token).text ++ (gen.append token).pending =
      M.detokenized next.params next.outputs := by
    rw [outputs, ← params.trans closing.params.symm, ← going.outputs_append,
      ← (M.spell_detokenized _ _).1, ← going.spelled_append]
  cases closes with
  | token _ text pending =>
    rw [text, pending, whole]
  | length final => exact goes _ final
  | string _ _ text pending _ =>
    rw [text, pending, append_nil, ← whole]
    exact (List.take_prefix _ _).trans (prefix_append _ _)

theorem Closing.outputs {why : FinishReason} (closing : Closing r next why) :
    r.outputs <+: next.outputs := by
  rcases closing.how with ⟨same, _⟩ | ⟨gen, token, _, _, longer, outputs, _⟩
  · rw [same]
  · rw [outputs]
    exact longer.trans (prefix_append _ _)

/-- Every place up to which something was released starts a character of the final text. -/
theorem Closing.released_starts {last : Request M} {why : FinishReason}
    (closing : Closing r next why) (flushed : last.toGen = next.flush)
    (out : last.out.dropLast = r.out) (valid : Valid last.text) (whole : last.DeliversWhole)
    {place : Nat} (released : r.Released place) (inside : place ≤ last.text.length) {byte : UInt8}
    (found : last.text[place]? = some byte) : isTail byte = false := by
  obtain ⟨chunk, member, few, same⟩ := released
  have params : last.params = r.params := by
    rw [flushed]
    exact closing.params
  have part : last.text <+: M.detokenized r.params last.outputs := by
    rw [← params, flushed]
    exact closing.text_leads
  have outputs : r.outputs <+: last.outputs := by
    rw [flushed]
    exact closing.outputs
  rw [Lib.take_leads outputs few] at same
  have delivered := whole chunk (out ▸ member) byte
  rw [params, holdback_congr params, ← same] at delivered
  have leading : last.outputs.take chunk.nOutputTokens <+: last.outputs := take_prefix _ _
  generalize last.outputs.take chunk.nOutputTokens = tokens at same delivered leading
  by_cases short : place < (M.spell r.params tokens).1.length
  · -- the cut lies within the text of these tokens
    apply delivered
    obtain ⟨rest, shape⟩ := M.spell_leads r.params leading
    obtain ⟨more, longer⟩ := part
    have equal : (last.text ++ more)[place]? = some byte := by
      rw [getElem?_append_left (List.getElem?_eq_some_iff.mp found).1]
      exact found
    rw [longer, ← shape, getElem?_append_left short] at equal
    exact equal
  · -- nothing is held back, and the text of these tokens ends where a character ends
    have all : place = (M.spell r.params tokens).1.length := by omega
    rw [all] at inside found
    have rest := M.spell_boundary r.params leading part valid inside
    rw [← Nat.add_zero (M.spell r.params tokens).1.length, ← getElem?_drop] at found
    generalize last.text.drop (M.spell r.params tokens).1.length = behind at rest found
    cases behind with
    | nil => cases found
    | cons first behind =>
      cases found
      exact rest.head

end Request

namespace Service

variable {service : Service M}

theorem Ended.texts_valid (start : ∀ r, service.fresh r → r.Streams ∧ r.outputs = [])
    {last : Request M} (ended : service.Ended last) (keeps : last.FirstSearchKeeps)
    (whole : last.DeliversWhole) (valid : Valid last.text) : ∀ text ∈ last.texts, Valid text := by
  obtain ⟨r, next, closing, flushed, out, slices⟩ := ended.closing start
  have starts : ∀ place, place = 0 ∨ r.Released place ∨ place = last.text.length →
      place ≤ last.text.length → ∀ byte, last.text[place]? = some byte → isTail byte = false := by
    intro place kind inside byte found
    rcases kind with rfl | released | rfl
    · generalize last.text = text at valid found
      cases text with
      | nil => cases found
      | cons first text =>
        cases found
        exact valid.head
    · exact closing.released_starts flushed out valid whole released inside found
    · rw [getElem?_eq_none (Nat.le_refl _)] at found
      cases found
  apply (slices keeps).all Valid.nil
  intro first second early late order inside
  have behind := (valid.split (starts first early (Nat.le_trans order inside))).2
  apply (behind.split _).1
  intro byte found
  rw [getElem?_drop, Nat.add_sub_cancel' order] at found
  exact starts second (.inr late) inside byte found

end Service

namespace Engine

/-- Streaming splits no character, as long as the first search for stop strings does not come
too late and the bytes held back for stop strings start a character. -/
theorem run_texts_valid (M : Model) (cfg : EngineConfig) (actions : List Action) {r : Request M}
    (done : r ∈ (run M cfg actions).done) (keeps : r.FirstSearchKeeps)
    (whole : r.DeliversWhole) (valid : Valid r.text) : ∀ chunk ∈ r.out, Valid chunk.text := by
  intro chunk member
  exact ((run_invariant M cfg actions).ended r done).texts_valid (fun _ => Submitted.streams) keeps
    whole valid _ (mem_map_of_mem member)

/-- A request for `bé` or, after one prompt token more, for `é`, with a stop string that never
comes. -/
def heldRun (prompt : List Token) (stop : Bytes) : List Action :=
  [.submit prompt { maxTokens := 5 - prompt.length, stop := [stop] } {}, .step {}, .step {},
    .step {}]

theorem run_texts_valid_held :
    ∃ r ∈ (run Model.spelling streamConfig (heldRun [5, 5] [0x78, 0x79, 0x7A])).done,
      r.texts = [[], [0x62], [0xC3, 0xA9]] ∧ ∀ chunk ∈ r.out, Valid chunk.text := by
  have found : ∃ r ∈ (run Model.spelling streamConfig (heldRun [5, 5] [0x78, 0x79, 0x7A])).done,
      r.texts = [[], [0x62], [0xC3, 0xA9]] ∧ r.FirstSearchKeeps ∧ r.DeliversWhole ∧
        Valid r.text := by
    decide +kernel
  obtain ⟨r, done, texts, keeps, whole, valid⟩ := found
  exact ⟨r, done, texts, run_texts_valid _ _ _ done keeps whole valid⟩

/-- One byte of `é` is held back as the possible start of `xy`. -/
theorem run_splits :
    ∃ r ∈ (run Model.spelling streamConfig (heldRun [5, 5, 5] [0x78, 0x79])).done,
      Valid r.text ∧ r.texts = [[0xC3], [0xA9]] ∧ ∃ chunk ∈ r.out, ¬ Valid chunk.text := by
  decide +kernel

end Engine

end Iian
