import Perplex.SiweNonces

/-! From the nonce to the token. The nonce is kept under the address as it was sent, and looked up
under its lower case: a wallet that writes its address with a checksum never signs in. -/
namespace Perplex.Siwe

/-- The lower case of an ASCII text. -/
def asciiLower (a : String) : String := String.ofList (a.toList.map Char.toLower)

def isHexDigit (c : Char) : Bool :=
  c.isDigit ∨ ('a' ≤ c ∧ c ≤ 'f') ∨ ('A' ≤ c ∧ c ≤ 'F')

/-- Twenty bytes in hex behind `0x`, in any letter case. -/
structure IsAddress (a : String) : Prop where
  digits : ∃ ds : List Char, a.toList = '0' :: 'x' :: ds ∧ ds.length = 40 ∧
    ∀ c ∈ ds, isHexDigit c = true

theorem isHexDigit_lt {c : Char} (h : isHexDigit c = true) : c.toNat < 128 := by
  simp only [isHexDigit, Char.isDigit, decide_eq_true_eq, Bool.and_eq_true, Char.le_def,
    UInt32.le_iff_toNat_le] at h
  change (_ ∧ c.toNat ≤ 57) ∨ (_ ∧ c.toNat ≤ 102) ∨ (_ ∧ c.toNat ≤ 70) at h
  omega

/-- Hex digits have no white space among them, and lower case keeps them. -/
theorem isHexDigit_facts {c : Char} (h : isHexDigit c = true) : isHexDigit c.toLower = true ∧
    c.toLower.toLower = c.toLower ∧ isWhitespace c = false := by
  have hall : ∀ n < 128, isHexDigit (Char.ofNat n) = true →
      isHexDigit (Char.ofNat n).toLower = true ∧
        (Char.ofNat n).toLower.toLower = (Char.ofNat n).toLower ∧
          isWhitespace (Char.ofNat n) = false := by decide +kernel
  have hc := hall c.toNat (isHexDigit_lt h)
  rw [Char.ofNat_toNat] at hc
  exact hc h

namespace IsAddress
variable {a : String}

theorem lower (h : IsAddress a) : IsAddress (asciiLower a) := by
  obtain ⟨ds,ha,hlen,hds⟩ := h.digits
  refine ⟨ds.map Char.toLower,?_,?_,?_⟩
  · rw [asciiLower, String.toList_ofList, ha]
    rfl
  · rw [List.length_map, hlen]
  · intro c hc
    obtain ⟨d,hd,rfl⟩ := List.mem_map.mp hc
    exact (isHexDigit_facts (hds d hd)).1

theorem lower_lower (h : IsAddress a) : asciiLower (asciiLower a) = asciiLower a := by
  obtain ⟨ds,ha,-,hds⟩ := h.digits
  unfold asciiLower
  rw [String.toList_ofList, ha, List.map_map]
  congr 1
  simp only [List.map_cons, List.cons.injEq, Function.comp_apply]
  refine ⟨rfl,rfl,?_⟩
  apply List.map_congr_left
  intro c hc
  exact (isHexDigit_facts (hds c hc)).2.1

theorem not_whitespace (h : IsAddress a) : ∀ c ∈ a.toList, isWhitespace c = false := by
  obtain ⟨ds,ha,-,hds⟩ := h.digits
  intro c hc
  rw [ha] at hc
  rcases List.mem_cons.mp hc with rfl | hc
  · rfl
  rcases List.mem_cons.mp hc with rfl | hc
  · rfl
  · exact (isHexDigit_facts (hds c hc)).2.2

end IsAddress

theorem utf8ByteSize_ofList (cs : List Char) :
    (String.ofList cs).utf8ByteSize = (cs.map Char.utf8Size).sum := by
  induction cs with
  | nil => simp
  | cons c cs ih =>
    have hcons : String.ofList (c :: cs) = String.singleton c ++ String.ofList cs := by
      rw [← String.toList_inj]
      simp
    rw [hcons, String.utf8ByteSize_append, ih]
    simp

/-- The handler `siwe_nonce` takes every address. -/
theorem IsAddress.accepted {a : String} (h : IsAddress a) :
    a.startsWith "0x" = true ∧ a.utf8ByteSize = 42 := by
  obtain ⟨ds,ha,hlen,hds⟩ := h.digits
  constructor
  · rw [String.startsWith_string_iff, ha]
    exact ⟨ds,rfl⟩
  · have hone : ds.map Char.utf8Size = ds.map fun _ => 1 := by
      apply List.map_congr_left
      intro c hc
      have hlt := isHexDigit_lt (hds c hc)
      rw [Char.utf8Size_eq_one_iff, UInt32.le_iff_toNat_le]
      exact Nat.lt_succ_iff.mp hlt
    rw [← String.ofList_toList (s := a), ha, utf8ByteSize_ofList, List.map_cons, List.map_cons,
      hone]
    simp [hlen]
    decide

/-- Text without white space is not trimmed. -/
theorem trim_eq_self {cs : List Char} (h : ∀ c ∈ cs, isWhitespace c = false) : trim cs = cs := by
  have hfront : cs.dropWhile isWhitespace = cs := by
    rw [List.dropWhile_eq_self_iff]
    intro hl
    simp [h _ (List.getElem_mem hl)]
  rw [trim, hfront, List.rdropWhile_eq_self_iff]
  intro hl
  simp [h _ (List.getLast_mem hl)]

/-- The nonce is a number in base 32: letters and digits. -/
def IsUlid (nonce : String) : Prop := ∀ c ∈ nonce.toList, c.isAlphanum = true

instance (nonce : String) : Decidable (IsUlid nonce) :=
  List.decidableBAll (fun c : Char => c.isAlphanum = true) nonce.toList

/-- The message names the address on its line, tagged or the second one, and the nonce on its
`Nonce` line. -/
structure Carries (message address nonce : String) : Prop where
  address : (lines message).find? (fun l => "Address: ".toList.isPrefixOf l) =
      some ("Address: ".toList ++ address.toList) ∨
    (lines message).find? (fun l => "Address: ".toList.isPrefixOf l) = none ∧
      (lines message)[1]? = some address.toList
  nonce : (lines message).find? (fun l => "Nonce: ".toList.isPrefixOf l) =
    some ("Nonce: ".toList ++ nonce.toList)

theorem trimStartMatches_of_not_prefix {pat cs : List Char} (h : ¬ pat <+: cs) (n : ℕ) :
    trimStartMatches pat n cs = cs := by
  cases n with
  | zero => rfl
  | succ n =>
    rw [trimStartMatches, if_neg]
    exact fun hpre => h (List.isPrefixOf_iff_prefix.mp hpre)

/-- What stands behind a tag is read as it is, when it neither has white space nor repeats the
tag. -/
theorem taggedLine_of_find {tag message text : String}
    (h : (lines message).find? (fun l => tag.toList.isPrefixOf l) =
      some (tag.toList ++ text.toList)) (htag : 0 < tag.toList.length)
    (hspace : ∀ c ∈ text.toList, isWhitespace c = false) (hrepeat : ¬ tag.toList <+: text.toList) :
    taggedLine tag message = some text := by
  rw [taggedLine, h]
  have hstart : trimStartMatches tag.toList (tag.toList ++ text.toList).length
      (tag.toList ++ text.toList) = text.toList := by
    obtain ⟨n,hn⟩ := Nat.exists_eq_succ_of_ne_zero (n := (tag.toList ++ text.toList).length)
      (by rw [List.length_append]; omega)
    have htwice : tag.toList.isPrefixOf (tag.toList ++ text.toList) = true :=
      List.isPrefixOf_iff_prefix.mpr (List.prefix_append _ _)
    -- the tag is taken off once, and the text does not begin with it again
    rw [hn, trimStartMatches, if_pos htwice, List.drop_left]
    exact trimStartMatches_of_not_prefix hrepeat n
  rw [Option.map_some, hstart, trim_eq_self hspace, String.ofList_toList]

theorem IsUlid.not_whitespace {nonce : String} (h : IsUlid nonce) :
    ∀ c ∈ nonce.toList, isWhitespace c = false := by
  intro c hc
  have hc := h c hc
  have hrange : ((65 ≤ c.toNat ∧ c.toNat ≤ 90) ∨ (97 ≤ c.toNat ∧ c.toNat ≤ 122)) ∨
      (48 ≤ c.toNat ∧ c.toNat ≤ 57) := by
    -- the tests of `isAlphanum`, written out
    have hbool : ((decide (65 ≤ c.val ∧ c.val ≤ 90) || (97 ≤ c.val && c.val ≤ 122)) ||
      (48 ≤ c.val && c.val ≤ 57)) = true := hc
    simpa [UInt32.le_iff_toNat_le] using hbool
  have hlt : c.toNat < 128 := by omega
  have hall : ∀ n < 128, (Char.ofNat n).isAlphanum = true →
      isWhitespace (Char.ofNat n) = false := by decide +kernel
  have hspace := hall c.toNat hlt
  rw [Char.ofNat_toNat] at hspace
  exact hspace hc

section Carries
variable {message address nonce : String} (h : Carries message address nonce)
include h

theorem Carries.parseAddress (ha : IsAddress address) :
    parseSiweAddress message = some address := by
  rcases h.address with htagged | ⟨hnone,hsecond⟩
  · have hrepeat : ¬ "Address: ".toList <+: address.toList := by
      obtain ⟨ds,hds,-⟩ := ha.digits
      rintro ⟨rest,hrest⟩
      rw [hds] at hrest
      exact absurd (List.cons.inj hrest).1 (by decide)
    rw [parseSiweAddress, taggedLine_of_find htagged (by decide) ha.not_whitespace hrepeat,
      Option.some_or]
  · rw [parseSiweAddress, taggedLine, hnone, hsecond, Option.map_none, Option.none_or,
      Option.map_some, trim_eq_self ha.not_whitespace, String.ofList_toList]

theorem Carries.parseNonce (hn : IsUlid nonce) : parseSiweNonce message = some nonce := by
  refine taggedLine_of_find h.nonce (by decide) hn.not_whitespace ?_
  intro hpre
  have hcolon : ':' ∈ nonce.toList := hpre.subset (by decide)
  exact absurd (hn ':' hcolon) (by decide)

end Carries

/-- The checks pass for a message that the key of the address has signed. -/
theorem verifyChecks_of_carries {env : Env} {message signature address nonce : String}
    (h : Carries message address nonce) (ha : IsAddress address) (hn : IsUlid nonce)
    (hsigned : env.recover message signature = some (env.lower address)) :
    verifyChecks env message signature = .ok (env.lower address,nonce) := by
  simp only [verifyChecks, h.parseAddress ha, h.parseNonce hn, hsigned]
  exact ensure_of rfl _ _

/-- A text without line breaks. -/
def Unbroken (cs : List Char) : Prop := ∀ c ∈ cs, c ≠ '\n' ∧ c ≠ '\r'

instance (cs : List Char) : Decidable (Unbroken cs) :=
  List.decidableBAll (fun c : Char => c ≠ '\n' ∧ c ≠ '\r') cs

theorem Unbroken.append {cs ds : List Char} (hc : Unbroken cs) (hd : Unbroken ds) :
    Unbroken (cs ++ ds) :=
  List.forall_mem_append.mpr ⟨hc,hd⟩

theorem Unbroken.of_not_whitespace {cs : List Char} (h : ∀ c ∈ cs, isWhitespace c = false) :
    Unbroken cs := by
  intro c hc
  constructor <;> rintro rfl <;> exact absurd (h _ hc) (by decide)

theorem unbroken_toString (n : ℕ) : Unbroken (toString n).toList := by
  intro c hc
  have hdigit : c.isDigit := Nat.isDigit_of_mem_toDigits (by decide) (by decide)
    (show c ∈ Nat.toDigits 10 n by simpa using hc)
  constructor <;> rintro rfl <;> exact absurd hdigit (by decide)

/-- What the page that asks for the signature says of itself. The host of its location is in
lower case. -/
structure Page where
  host : String
  origin : String
  chainId : ℕ
  issuedAt : String
  host_lower : ∀ c ∈ host.toList, c.isUpper = false
  host_unbroken : Unbroken host.toList
  origin_unbroken : Unbroken origin.toList
  issuedAt_unbroken : Unbroken issuedAt.toList

/-- The lines of a `SiweMessage` with the fields that `signIn` sets, up to the last. -/
def Page.messageLines (p : Page) (address nonce : String) : List String :=
  [p.host ++ " wants you to sign in with your Ethereum account:",address,"","Sign in to Perplex.",
    "","URI: " ++ p.origin,"Version: 1","Chain ID: " ++ toString p.chainId,"Nonce: " ++ nonce]

def Page.prepareMessage (p : Page) (address nonce : String) : String :=
  String.ofList (['\n'].intercalate ((p.messageLines address nonce).map String.toList ++
    [("Issued At: " ++ p.issuedAt).toList]))

theorem Unbroken.stripCr_eq {l : List Char} (h : Unbroken l) : stripCr l = l := by
  rw [stripCr, if_neg]
  exact fun hlast => (h '\r' (List.mem_of_getLast? hlast)).2 rfl

theorem Unbroken.linesFrom_append {l : List Char} (h : Unbroken l) (line cs : List Char) :
    linesFrom line (l ++ cs) = linesFrom (line ++ l) cs := by
  induction l generalizing line with
  | nil => rw [List.append_nil, List.nil_append]
  | cons c l ih =>
    obtain ⟨⟨hc,-⟩,hl⟩ := List.forall_mem_cons.mp h
    rw [List.cons_append, linesFrom, if_neg hc, ih hl, List.append_assoc,
      List.singleton_append]

/-- Lines that are joined are the lines read, when the last one has a character. -/
theorem linesFrom_intercalate {ls : List (List Char)} {l : List Char} (hl : l ≠ [])
    (h : ∀ m ∈ ls ++ [l], Unbroken m) :
    linesFrom [] (['\n'].intercalate (ls ++ [l])) = ls ++ [l] := by
  induction ls with
  | nil =>
    have hlast := (h l List.mem_cons_self).linesFrom_append [] []
    rw [List.append_nil, List.nil_append] at hlast
    rw [List.nil_append, List.intercalate_singleton, hlast, linesFrom, if_neg hl]
  | cons m ls ih =>
    obtain ⟨hm,hls⟩ := List.forall_mem_cons.mp h
    rw [List.cons_append, List.intercalate_cons_of_ne_nil (by simp), List.append_assoc,
      hm.linesFrom_append, List.nil_append, List.singleton_append, linesFrom, if_pos rfl,
      hm.stripCr_eq, ih hls]

/-- A tag is not found where no line starts with its first character. -/
theorem find?_tag_eq_none {c : Char} {ls : List (List Char)} (tag : List Char)
    (h : some c ∉ ls.map List.head?) : ls.find? (fun l => (c :: tag).isPrefixOf l) = none := by
  rw [List.find?_eq_none]
  intro l hl hpre
  obtain ⟨rest,rfl⟩ := List.isPrefixOf_iff_prefix.mp hpre
  exact h (List.mem_map.mpr ⟨_,hl,rfl⟩)

section
variable (p : Page) {address nonce : String}
include p

theorem Page.lines_prepareMessage (ha : Unbroken address.toList) (hn : Unbroken nonce.toList) :
    lines (p.prepareMessage address nonce) = (p.messageLines address nonce).map String.toList ++
      [("Issued At: " ++ p.issuedAt).toList] := by
  rw [lines, Page.prepareMessage, String.toList_ofList]
  apply linesFrom_intercalate
  · rw [String.toList_append]
    exact List.append_ne_nil_of_left_ne_nil (by decide) _
  · simp only [Page.messageLines, List.map_cons, List.map_nil, List.forall_mem_append,
      List.forall_mem_cons, String.toList_append]
    exact ⟨⟨p.host_unbroken.append (by decide),ha,by decide,by decide,by decide,
      .append (by decide) p.origin_unbroken,by decide,.append (by decide) (unbroken_toString _),
      .append (by decide) hn,List.forall_mem_nil _⟩,.append (by decide) p.issuedAt_unbroken,
      List.forall_mem_nil _⟩

/-- The first line starts with no capital. -/
theorem Page.head?_host {c : Char} (hc : c.isUpper = true) :
    (p.host ++ " wants you to sign in with your Ethereum account:").toList.head? ≠ some c := by
  rw [String.toList_append]
  intro hhead
  cases htext : p.host.toList with
  | nil =>
    rw [htext] at hhead
    cases hhead
    cases hc
  | cons d text =>
    rw [htext] at hhead
    cases hhead
    have hlower := p.host_lower c (htext ▸ List.mem_cons_self)
    rw [hc] at hlower
    cases hlower

/-- The client puts the address on the second line, and no line before the nonce has its tag. -/
theorem Page.carries_prepareMessage (ha : IsAddress address) (hn : IsUlid nonce) :
    Carries (p.prepareMessage address nonce) address nonce := by
  obtain ⟨ds,hds,-⟩ := ha.digits
  set host := p.host ++ " wants you to sign in with your Ethereum account:"
  let preamble := [host,address,"","Sign in to Perplex.","","URI: " ++ p.origin,"Version: 1",
    "Chain ID: " ++ toString p.chainId].map String.toList
  have hlines : lines (p.prepareMessage address nonce) =
      preamble ++ [("Nonce: " ++ nonce).toList,("Issued At: " ++ p.issuedAt).toList] :=
    p.lines_prepareMessage (.of_not_whitespace ha.not_whitespace)
      (.of_not_whitespace hn.not_whitespace)
  have hheads : preamble.map List.head? = [host.toList.head?,some '0',none,some 'S',none,some 'U',
      some 'V',some 'C'] := by
    simp [preamble, hds]
  have hrest : [("Nonce: " ++ nonce).toList,("Issued At: " ++ p.issuedAt).toList].map List.head? =
      [some 'N',some 'I'] := by simp
  have hhost (c : Char) (hc : c.isUpper = true) : some c ≠ host.toList.head? :=
    (p.head?_host hc).symm
  refine ⟨.inr ⟨?_,by rw [hlines]; rfl⟩,?_⟩
  · rw [hlines]
    refine find?_tag_eq_none (c := 'A') "ddress: ".toList ?_
    rw [List.map_append, hheads, hrest]
    simp [hhost 'A']
  · have hnone : preamble.find? (fun l => "Nonce: ".toList.isPrefixOf l) = none := by
      refine find?_tag_eq_none (c := 'N') "once: ".toList ?_
      rw [hheads]
      simp [hhost 'N']
    rw [hlines, List.find?_append, hnone, Option.none_or, String.toList_append,
      List.find?_cons_of_pos (List.isPrefixOf_iff_prefix.mpr (List.prefix_append _ _))]

end

/-- The section is not about the address, in any letter case. -/
def Section.Foreign (env : Env) (address : String) : Section → Prop
  | .siweNonce a _ => env.lower a ≠ env.lower address
  | .verify message _ => ∀ a, parseSiweAddress message = some a → env.lower a ≠ env.lower address
  | .consume _ _ a _ => a ≠ env.lower address

variable {ι : Type} [DecidableEq ι]

/-- Other calls run, and none of their sections is about the address. -/
def Aside (env : Env) (address : String) (i : ι) : Pool ι Section (Shared ι) → List ι → Prop
  | _, [] => True
  | c, j :: is => j ≠ i ∧ (∀ w ws, c.pending j = w :: ws → w.Foreign env address) ∧
    Aside env address i (c.step (perform env) j) is

variable {env : Env} {address : String} {i : ι}

omit [DecidableEq ι] in
theorem perform_foreign {j : ι} {w : Section} {s s' : Shared ι} {new : List Section}
    (hlower : env.lower (env.lower address) = env.lower address) (hw : w.Foreign env address)
    (hs : perform env j w s = some (s',new)) :
    s'.siwe_nonces (env.lower address) = s.siwe_nonces (env.lower address) := by
  cases w with
  | siweNonce a nonce =>
    simp only [perform] at hs
    split_ifs at hs <;> cases hs
    · rfl
    · have hne : env.lower address ≠ a := by
        rintro rfl
        exact hw hlower
      exact Function.update_of_ne hne _ _
  | verify message signature =>
    simp only [perform] at hs
    split at hs <;> cases hs <;> rfl
  | consume message signature a nonce =>
    have hne : env.lower address ≠ a := Ne.symm hw
    simp only [perform, Shared.consumeSiweNonce] at hs
    cases hget : s.siwe_nonces a with
    | none =>
      simp only [hget] at hs
      cases hs
      exact Function.update_of_ne hne _ _
    | some issued =>
      simp only [hget] at hs
      split_ifs at hs <;> cases hs <;> exact Function.update_of_ne hne _ _

/-- What the call has still to do stays, and so does the nonce under the lower case. -/
theorem run_aside (hlower : env.lower (env.lower address) = env.lower address)
    {c : Pool ι Section (Shared ι)} {is : List ι} (h : Aside env address i c is) :
    (c.run (perform env) is).pending i = c.pending i ∧
      (c.run (perform env) is).shared.siwe_nonces (env.lower address) =
        c.shared.siwe_nonces (env.lower address) := by
  induction is generalizing c with
  | nil => exact ⟨rfl,rfl⟩
  | cons j is ih =>
    obtain ⟨hne,hforeign,hrest⟩ := h
    obtain ⟨hpending,hnonce⟩ := ih hrest
    rw [Pool.run_cons, hpending, hnonce, Pool.step_pending_of_ne hne.symm]
    refine ⟨rfl,?_⟩
    rcases c.step_cases (perform env) j with hstep | ⟨w,ws,s,new,hp,hs,hstep⟩
    · rw [hstep]
    · rw [hstep]
      exact perform_foreign hlower (hforeign w ws hp) hs

/-- The subject of the token that `siwe_verify` returns after a login. -/
def siweVerifySubject (env : Env) (l : Login ι) : String := env.lower (env.lower l.address)

omit [DecidableEq ι] in
theorem perform_siweNonce (ha : IsAddress address) (nonce : String) (s : Shared ι) :
    perform env i (.siweNonce address nonce) s =
      some ((s.issueSiweNonce address nonce).record (.issued address nonce),[]) := by
  obtain ⟨hstarts,hsize⟩ := ha.accepted
  simp [perform, hstarts, hsize]

omit [DecidableEq ι] in
theorem perform_verify {message signature nonce : String} (hcarries : Carries message address nonce)
    (ha : IsAddress address) (hn : IsUlid nonce)
    (hsigned : env.recover message signature = some (env.lower address)) (s : Shared ι) :
    perform env i (.verify message signature) s =
      some (s,[.consume message signature (env.lower address) nonce]) := by
  simp only [perform, verifyChecks_of_carries hcarries ha hn hsigned]

omit [DecidableEq ι] in
/-- A call takes the nonce that it expects, or it fails. -/
theorem perform_consume (env : Env) (i : ι) (message signature address nonce : String)
    (s : Shared ι) : ∃ s',
      perform env i (.consume message signature address nonce) s = some (s',[]) ∧
      (s.siwe_nonces address = some nonce ∧
          s'.log = .verified ⟨i,message,signature,address,nonce⟩ :: s.log ∨
        s.siwe_nonces address ≠ some nonce ∧ ∃ e, s'.log = .failed i e :: s.log) := by
  simp only [perform, Shared.consumeSiweNonce]
  cases hget : s.siwe_nonces address with
  | none => exact ⟨_,rfl,.inr ⟨by simp,_,rfl⟩⟩
  | some issued =>
    dsimp only
    split_ifs with he
    · subst he
      exact ⟨_,rfl,.inl ⟨rfl,rfl⟩⟩
    · exact ⟨_,rfl,.inr ⟨by simpa using he,_,rfl⟩⟩

/-- A wallet asks for a nonce for its address and sends back a message that carries both, signed
with its key, while others do what is not about the address. It gets its token if and only if it
wrote its address in lower case. -/
theorem siwe_complete_iff (hlower : ∀ a, IsAddress a → env.lower a = asciiLower a)
    (ha : IsAddress address) {nonce message signature : String} (hn : IsUlid nonce)
    (hcarries : Carries message address nonce)
    (hsigned : env.recover message signature = some (env.lower address))
    {c : Pool ι Section (Shared ι)} {ws : List Section} {is₁ is₂ : List ι}
    (hp : c.pending i = .siweNonce address nonce :: .verify message signature :: ws)
    (hfresh : c.shared.siwe_nonces (env.lower address) ≠ some nonce)
    (h₁ : Aside env address i (c.step (perform env) i) is₁)
    (h₂ : Aside env address i
      (((c.step (perform env) i).run (perform env) is₁).step (perform env) i) is₂) :
    let issued := c.step (perform env) i
    let waiting := ((issued.run (perform env) is₁).step (perform env) i).run (perform env) is₂
    let returned := waiting.step (perform env) i
    issued.shared.log = .issued address nonce :: c.shared.log ∧
      ((∃ l : Login ι, returned.shared.log = .verified l :: waiting.shared.log ∧ l.call = i ∧
          l.message = message ∧ siweVerifySubject env l = env.lower address) ↔
        asciiLower address = address) := by
  intro issued waiting returned
  have hsame : env.lower (env.lower address) = env.lower address := by
    rw [hlower address ha, hlower _ ha.lower, ha.lower_lower]
  -- the three sections of the wallet, and what the others leave of them in between
  have hstep₁ : issued = ⟨_,Function.update c.pending i (.verify message signature :: ws)⟩ :=
    Pool.step_eq hp (perform_siweNonce ha nonce _)
  obtain ⟨hpending₁,hnonce₁⟩ : (issued.run (perform env) is₁).pending i = issued.pending i ∧
      (issued.run (perform env) is₁).shared.siwe_nonces (env.lower address) =
        issued.shared.siwe_nonces (env.lower address) := run_aside hsame h₁
  have hafter : (issued.run (perform env) is₁).pending i = .verify message signature :: ws := by
    rw [hpending₁, hstep₁]
    exact Function.update_self ..
  have hstep₂ := Pool.step_eq hafter (perform_verify hcarries ha hn hsigned _)
  obtain ⟨hpending₂,hnonce₂⟩ := run_aside hsame h₂
  have hlast : waiting.pending i =
      .consume message signature (env.lower address) nonce :: ws := by
    rw [hpending₂, hstep₂]
    exact Function.update_self ..
  -- what is under the lower case is what the issue left there
  have hkey : waiting.shared.siwe_nonces (env.lower address) =
      Function.update c.shared.siwe_nonces address (some nonce) (env.lower address) := by
    rw [hnonce₂, hstep₂]
    change (issued.run (perform env) is₁).shared.siwe_nonces (env.lower address) = _
    rw [hnonce₁, hstep₁]
    rfl
  obtain ⟨s',hconsume,hresult⟩ := perform_consume env i message signature (env.lower address) nonce
    waiting.shared
  have hstep₃ : returned = ⟨s',_⟩ := Pool.step_eq hlast hconsume
  refine ⟨by rw [hstep₁]; rfl,?_⟩
  rw [hstep₃]
  by_cases hcase : asciiLower address = address
  · have hl : env.lower address = address := (hlower address ha).trans hcase
    rw [hkey, hl, Function.update_self] at hresult
    refine iff_of_true ?_ hcase
    obtain ⟨-,hlog⟩ | ⟨hne,-⟩ := hresult
    · exact ⟨_,hlog,rfl,rfl,by rw [siweVerifySubject, hl, hl]⟩
    · exact absurd rfl hne
  · have hl : env.lower address ≠ address := fun h => hcase ((hlower address ha).symm.trans h)
    rw [hkey, Function.update_of_ne hl] at hresult
    refine iff_of_false ?_ hcase
    obtain ⟨hget,-⟩ | ⟨-,e,hlog⟩ := hresult
    · exact absurd hget hfresh
    · rintro ⟨l,hverified,-⟩
      rw [hlog] at hverified
      cases hverified

def localPage : Page where
  host := "perplex.local"
  origin := "https://perplex.local"
  chainId := 421614
  issuedAt := "2025-01-01T00:00:00.000Z"
  host_lower := by simp
  host_unbroken := by decide
  origin_unbroken := by decide
  issuedAt_unbroken := by decide

/-- The key of the address has signed the message. -/
def keyEnv (message address : String) : Env where
  recover := fun m g => if m = message ∧ g = "0x5e" then some (asciiLower address) else none
  lower := asciiLower

/-- A wallet signs in, and Alice asks for a nonce. -/
def walletCalls (address message : String) : Pool ℕ Section (Shared ℕ) where
  shared := ⟨fun _ => none,[]⟩
  pending := fun i =>
    if i = 0 then [.siweNonce address "01K",.verify message "0x5e"]
    else if i = 1 then [.siweNonce aliceAddress "01J"]
    else []

def bobAddress : String := "0x5aaeb6053f3e94c9b9a09f33669435e7ef1beaed"

/-- His address with its checksum. -/
def bobChecksumAddress : String := "0x5aAeb6053F3E94C9b9A09f33669435E7Ef1BeAed"

theorem siwe_complete_iff_bob :
    let message := localPage.prepareMessage bobAddress "01K"
    let env := keyEnv message bobAddress
    let issued := (walletCalls bobAddress message).step (perform env) 0
    let waiting := ((issued.run (perform env) [1]).step (perform env) 0).run (perform env) []
    ∃ l : Login ℕ, (waiting.step (perform env) 0).shared.log = .verified l :: waiting.shared.log ∧
      l.call = 0 ∧ l.message = message ∧ siweVerifySubject env l = env.lower bobAddress := by
  have haddress : IsAddress bobAddress :=
    ⟨"5aaeb6053f3e94c9b9a09f33669435e7ef1beaed".toList,by decide +kernel,by decide +kernel,
      List.all_eq_true.mp (by decide +kernel)⟩
  have hnonce : IsUlid "01K" := by decide
  intro message
  have hcarries : Carries message bobAddress "01K" :=
    localPage.carries_prepareMessage haddress hnonce
  clear_value message
  intro env issued waiting
  have haside₁ : Aside env bobAddress 0 issued [1] := by
    refine ⟨by decide,?_,trivial⟩
    intro w ws hw
    rw [Pool.step_pending_of_ne (by decide)] at hw
    cases hw
    change asciiLower aliceAddress ≠ asciiLower bobAddress
    decide +kernel
  have haside₂ : Aside env bobAddress 0 ((issued.run (perform env) [1]).step (perform env) 0) [] :=
    trivial
  exact (siwe_complete_iff (fun _ _ => rfl) haddress hnonce hcarries (if_pos ⟨rfl,rfl⟩) rfl
    (by simp [walletCalls]) haside₁ haside₂).2.mpr (by decide +kernel)

/-- Bob's wallet writes the checksum: he has his nonce and signs it, and no token is returned. -/
theorem checksum_address_fails :
    let message := localPage.prepareMessage bobChecksumAddress "01K"
    let env := keyEnv message bobChecksumAddress
    IsAddress bobChecksumAddress ∧ Carries message bobChecksumAddress "01K" ∧
      env.recover message "0x5e" = some (env.lower bobChecksumAddress) ∧
      ∃ n, let c := (walletCalls bobChecksumAddress message).run (perform env) (List.replicate n 0)
        c.pending 0 = [] ∧ c.shared.log =
          [.failed 0 (.unauthorized "nonce not issued or already used"),
            .issued bobChecksumAddress "01K"] := by
  have haddress : IsAddress bobChecksumAddress :=
    ⟨"5aAeb6053F3E94C9b9A09f33669435E7Ef1BeAed".toList,by decide +kernel,by decide +kernel,
      List.all_eq_true.mp (by decide +kernel)⟩
  have hnonce : IsUlid "01K" := by decide
  intro message
  have hcarries : Carries message bobChecksumAddress "01K" :=
    localPage.carries_prepareMessage haddress hnonce
  clear_value message
  intro env
  have hsigned : env.recover message "0x5e" = some (env.lower bobChecksumAddress) :=
    if_pos ⟨rfl,rfl⟩
  refine ⟨haddress,hcarries,hsigned,?_⟩
  have hcase : env.lower bobChecksumAddress ≠ bobChecksumAddress := by
    change asciiLower bobChecksumAddress ≠ bobChecksumAddress
    decide +kernel
  let s := ((walletCalls bobChecksumAddress message).shared.issueSiweNonce bobChecksumAddress
    "01K").record (.issued bobChecksumAddress "01K")
  have hmissing : s.siwe_nonces (env.lower bobChecksumAddress) = none := by
    simp only [s, Shared.record, Shared.issueSiweNonce, Function.update_of_ne hcase]
    rfl
  have hconsume : perform env 0 (.consume message "0x5e" (env.lower bobChecksumAddress) "01K") s =
      some ((s.consumeSiweNonce (env.lower bobChecksumAddress)).2.record
        (.failed 0 (.unauthorized "nonce not issued or already used")),[]) := by
    simp only [perform, Shared.consumeSiweNonce, hmissing]
  obtain ⟨n,hn⟩ := Pool.Finishes.run (c := walletCalls bobChecksumAddress message)
    (.cons (perform_siweNonce haddress "01K" _)
      (.cons (perform_verify hcarries haddress hnonce hsigned _) (.cons hconsume (.nil _)))) rfl
  refine ⟨n,?_⟩
  rw [hn]
  exact ⟨rfl,rfl⟩

end Perplex.Siwe
