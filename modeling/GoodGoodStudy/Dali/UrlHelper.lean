/-
`parse_url_pairs` of `dali/utils/url_helper.py`: decoding `k1=v1&k2=v2&...` into a dictionary of
value lists, and the round trip from the pairs a client writes.
-/
import GoodGoodStudy.Lib.Bytes
import GoodGoodStudy.Lib.Dict

namespace GoodGoodStudy.Dali

open GoodGoodStudy.Lib

def amp : UInt8 := 38

def eqSign : UInt8 := 61

/-- One token: only `key=value` with exactly one `=` is kept. -/
def addToken (params : Dict Bytes (List Bytes)) (token : Bytes) : Dict Bytes (List Bytes) :=
  match token.splitOn eqSign with
  | [k, v] => params.push k v
  | _ => params

def parseUrlPairs (queryString : Bytes) : Dict Bytes (List Bytes) :=
  (queryString.splitOn amp).foldl addToken .empty

/-! ## Decoding an encoded query string -/

/-- The token a client writes for a pair. -/
def renderPair (p : Bytes × Bytes) : Bytes := p.1 ++ eqSign :: p.2

/-- The query string a client writes for a list of pairs. -/
def renderPairs (ps : List (Bytes × Bytes)) : Bytes := [amp].intercalate (ps.map renderPair)

/-- A key or value that needs no escaping. -/
def Plain (b : Bytes) : Prop := amp ∉ b ∧ eqSign ∉ b

theorem addToken_renderPair {p : Bytes × Bytes} (hk : Plain p.1) (hv : Plain p.2)
    (params : Dict Bytes (List Bytes)) : addToken params (renderPair p) = params.push p.1 p.2 := by
  have hsplit : (renderPair p).splitOn eqSign = [p.1, p.2] := by
    have hbare : ∀ l ∈ [p.1, p.2], eqSign ∉ l := by
      intro l hl
      rcases List.mem_pair.1 hl with rfl | rfl
      · exact hk.2
      · exact hv.2
    simpa [renderPair] using List.splitOn_intercalate eqSign hbare (by simp)
  simp only [addToken, hsplit]

theorem parseUrlPairs_renderPairs {ps : List (Bytes × Bytes)} (hne : ps ≠ [])
    (hps : ∀ p ∈ ps, Plain p.1 ∧ Plain p.2) :
    parseUrlPairs (renderPairs ps) = Dict.pushAll .empty ps := by
  have hsplit : (renderPairs ps).splitOn amp = ps.map renderPair := by
    refine List.splitOn_intercalate amp (fun l hl => ?_) (by simpa using hne)
    obtain ⟨p, hp, rfl⟩ := List.mem_map.1 hl
    obtain ⟨hk, hv⟩ := hps p hp
    simp only [renderPair, List.mem_append, List.mem_cons, not_or]
    exact ⟨hk.1, by decide, hv.1⟩
  rw [parseUrlPairs, hsplit, List.foldl_map, Dict.pushAll]
  exact List.foldl_ext _ _ _ fun d p hp => addToken_renderPair (hps p hp).1 (hps p hp).2 d

/-- Decoding inverts encoding: the bytes `k1=v1&k2=v2&...` of a non-empty list of plain pairs are
parsed to the map that sends each key to its values in order, and has no other key. -/
theorem parse_url_pairs_decodes (ps : List (Bytes × Bytes)) (hne : ps ≠ [])
    (hps : ∀ p ∈ ps, Plain p.1 ∧ Plain p.2) :
    (∀ k ∈ ps.map Prod.fst, (parseUrlPairs (renderPairs ps)).get? k =
      some ((ps.filter fun p => decide (p.1 = k)).map Prod.snd)) ∧
    ∀ k ∉ ps.map Prod.fst, (parseUrlPairs (renderPairs ps)).get? k = none := by
  rw [parseUrlPairs_renderPairs hne hps]
  exact ⟨fun k hk => Dict.valuesOf_eq k ps ▸ Dict.get?_pushAll_empty_of_mem hk,
    fun k hk => Dict.get?_pushAll_empty_of_not_mem hk⟩

/-- `a=1&b=&a=2`: a repeated key and an empty value. -/
theorem parse_url_pairs_decodes_repeated :
    (parseUrlPairs (ascii "a=1&b=&a=2")).get? (ascii "a") = some [ascii "1", ascii "2"] :=
  (parse_url_pairs_decodes [(ascii "a", ascii "1"), (ascii "b", []), (ascii "a", ascii "2")] (by decide)
    (by unfold Plain; decide)).1 (ascii "a") (by decide)

end GoodGoodStudy.Dali
