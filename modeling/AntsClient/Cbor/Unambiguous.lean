import AntsClient.Cbor.DecoderSpec
import AntsClient.Cbor.Values

namespace AntsClient.Cbor.Unambiguous

open Common Head Tokens DecoderSpec Values Value

variable {t : Token} {buf : Bytes} {pos : Nat} {v : Value}

def major : Token → UInt8
  | .uint _ => 0
  | .nint _ => 1
  | .bytes _ => 2
  | .text _ => 3
  | .array _ => 4
  | .map _ => 5
  | .tag _ => 6
  | .bool _ | .null => 7

def argument : Token → Nat
  | .uint n | .nint n | .array n | .map n | .tag n => n
  | .bytes b | .text b => b.length
  | .bool v => if v then 21 else 20
  | .null => 22

def payload : Token → Bytes
  | .bytes b | .text b => b
  | _ => []

theorem enc_eq (t : Token) : t.enc = head (major t) (argument t) ++ payload t := by
  cases t with
  | bool v => cases v <;> rfl
  | null => rfl
  | uint | nint | array | map | tag => exact (List.append_nil _).symm
  | bytes | text => rfl

theorem major_lt (t : Token) : major t < 8 := by
  cases t <;> simp only [major] <;> decide

theorem argument_lt (h : t.Valid) : argument t < 2 ^ 64 := by
  cases t with
  | uint | array | map | bytes | text => exact h
  | nint n => exact lt_trans (show n < 2 ^ 63 from h) (by norm_num)
  | tag t => rcases h with rfl | rfl | rfl <;> norm_num [argument]
  | bool v => cases v <;> norm_num [argument]
  | null => norm_num [argument]

theorem eq_of_header {t' : Token} (hm : major t = major t') (ha : argument t = argument t')
    (hp : payload t = payload t') : t = t' := by
  cases t <;> cases t' <;> simp only [major] at hm <;> first | cases hm; done | simp_all [argument, payload]
  case bool.bool v w => cases v <;> cases w <;> simp_all
  case bool.null v => cases v <;> simp_all
  case null.bool v => cases v <;> simp_all

theorem head_unique {m m' : UInt8} {v v' : Nat} (hm : m < 8) (hm' : m' < 8)
    (hv : v < 2 ^ 64) (hv' : v' < 2 ^ 64) (h : At buf pos (head m v)) (h' : At buf pos (head m' v')) :
    m = m' ∧ v = v' := by
  have hr := (@cborReadHead_iff ⟨buf, pos, []⟩ _ m v).mpr ⟨hm, hv, h, rfl⟩
  have hr' := (@cborReadHead_iff ⟨buf, pos, []⟩ _ m' v').mpr ⟨hm', hv', h', rfl⟩
  have heq := hr.symm.trans hr'
  simp only [EStateM.Result.ok.injEq, Prod.mk.injEq] at heq
  exact heq.1

theorem token_unique {t' : Token} (ht : t.Valid) (ht' : t'.Valid) (h : At buf pos t.enc)
    (h' : At buf pos t'.enc) : t = t' := by
  rw [enc_eq, at_append] at h h'
  obtain ⟨hm, ha⟩ := head_unique (major_lt t) (major_lt t') (argument_lt ht) (argument_lt ht') h.1 h'.1
  refine eq_of_header hm ha ?_
  rw [← hm, ← ha] at h'
  refine at_unique h.2 h'.2 ?_
  cases t <;> cases t' <;> first | rfl | exact ha | (simp only [major] at hm; cases hm)

def first : Value → Token
  | .uint n => .uint n
  | .nint n => .nint n
  | .bytes b => .bytes b
  | .text b => .text b
  | .array vs => .array vs.length
  | .map kvs => .map kvs.length
  | .tag t _ => .tag t
  | .bool v => .bool v
  | .null => .null

theorem first_valid (h : All InRange v) : (first v).Valid := by
  cases v <;> first | exact h | exact h.1

theorem at_first (h : At buf pos (encode v)) : At buf pos (first v).enc := by
  cases v <;> exact (at_append.mp h).1

theorem first_unique {v' : Value} (hv : All InRange v) (hv' : All InRange v') (h : At buf pos (encode v))
    (h' : At buf pos (encode v')) : first v = first v' :=
  token_unique (first_valid hv) (first_valid hv') (at_first h) (at_first h')

def Unique (v : Value) : Prop :=
  ∀ {buf : Bytes} {pos : Nat} {v' : Value}, All InRange v' → At buf pos (encode v) →
    At buf pos (encode v') → v = v'

theorem items_unique {α : Type} {g : α → Bytes} {xs ys : List α}
    (hu : ∀ x ∈ xs, ∀ y ∈ ys, ∀ pos, At buf pos (g x) → At buf pos (g y) → x = y) (hl : xs.length = ys.length)
    (h : At buf pos (xs.flatMap g)) (h' : At buf pos (ys.flatMap g)) : xs = ys := by
  induction xs generalizing ys pos with
  | nil => exact (List.length_eq_zero_iff.mp hl.symm).symm
  | cons x xs ih =>
    cases ys with
    | nil => cases hl
    | cons y ys =>
      rw [List.flatMap_cons, at_append] at h h'
      obtain rfl := hu x List.mem_cons_self y List.mem_cons_self pos h.1 h'.1
      have hrest := fun a ha b hb => hu a (List.mem_cons_of_mem x ha) b (List.mem_cons_of_mem x hb)
      rw [ih hrest (Nat.succ.inj hl) h.2 h'.2]

theorem encode_unique (hv : All InRange v) : Unique v := by
  induction v with
  | uint | nint | bytes | text | bool | null =>
    intro buf pos v' hv' h h'
    have hf := first_unique hv hv' h h'
    cases v' <;> simp_all [first]
  | array vs ih =>
    intro buf pos v' hv' h h'
    have hf := first_unique hv hv' h h'
    cases v' <;> simp only [first, reduceCtorEq, Token.array.injEq] at hf
    case array vs' =>
      obtain ⟨-, hvs⟩ := all_array.mp hv
      obtain ⟨-, hvs'⟩ := all_array.mp hv'
      rw [encode_array, at_append] at h h'
      rw [← hf] at h'
      rw [items_unique (fun v hm w hw _ => ih v hm (hvs v hm) (hvs' w hw)) hf h.2 h'.2]
  | map kvs ih =>
    intro buf pos v' hv' h h'
    have hf := first_unique hv hv' h h'
    cases v' <;> simp only [first, reduceCtorEq, Token.map.injEq] at hf
    case map kvs' =>
      obtain ⟨-, hkvs⟩ := all_map.mp hv
      obtain ⟨-, hkvs'⟩ := all_map.mp hv'
      rw [encode_map, at_append] at h h'
      rw [← hf] at h'
      refine congrArg _ (items_unique (fun kv hm kw hw pos hat hat' => ?_) hf h.2 h'.2)
      rw [at_append] at hat hat'
      have hk := (ih kv hm).1 (hkvs kv hm).1 (hkvs' kw hw).1 hat.1 hat'.1
      rw [← hk] at hat'
      exact Prod.ext hk ((ih kv hm).2 (hkvs kv hm).2 (hkvs' kw hw).2 hat.2 hat'.2)
  | tag t v ih =>
    intro buf pos v' hv' h h'
    have hf := first_unique hv hv' h h'
    cases v' <;> simp only [first, reduceCtorEq, Token.tag.injEq] at hf
    case tag t' w =>
      subst hf
      rw [encode_tag, at_append] at h h'
      rw [ih hv.2 hv'.2 h.2 h'.2]

end AntsClient.Cbor.Unambiguous
