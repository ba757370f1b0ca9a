import Mathlib.Data.List.Basic
import Mathlib.Data.List.OfFn

/-! `cookies/helper.go`.  A Go string is a sequence of bytes, `Bytes` here.  The library calls
the helpers make are the fields of `Lib`: base64.URLEncoding, HMAC-SHA256 of the bytes written
to it, fasthttp's `cookie.String()`, and the AES-GCM seal and open under a key.  A cookie comes
back in a request whose cookies `jar` maps a name to the value a response set for it.

The signed format is the 32-byte MAC of `name ++ value` followed by the value, and `readSigned`
accepts exactly that; since nothing separates the name from the value under the MAC, one
signature serves every split of the same bytes.  The encrypted format seals `name:value` and
cuts the plaintext at its first `:`, so a name holding `:` is written but never read back. -/

namespace BuildingBlocks.Cookies

abbrev Bytes := List UInt8

/-- The errors the helpers return: `ErrNoCookie`, `ErrValueTooLong`, `ErrInvalidValue`, and
the `aes.KeySizeError` of `aes.NewCipher`. -/
inductive CookieError
  | noCookie
  | valueTooLong
  | invalidValue
  | keySize (n : Nat)
  deriving DecidableEq, Repr

/-- The fields of a `fasthttp.Cookie` the helpers read or set; `rest` stands for its other
attributes, which only `cookie.String()` reads. -/
structure Cookie where
  key : Bytes
  value : Bytes
  rest : Bytes
  deriving DecidableEq, Repr

/-- The library functions the helpers call: `base64.URLEncoding` `EncodeToString` and
`DecodeString` (`none` on an error), `mac.Sum(nil)` of `hmac.New(sha256.New, key)` after writing
the bytes, `cookie.String()`, and `Seal` and `Open` (`none` on an error) of the AES-GCM of a key
with a nonce. -/
structure Lib where
  encode : Bytes → Bytes
  decode : Bytes → Option Bytes
  mac : Bytes → Bytes → Bytes
  render : Cookie → Bytes
  gcmSeal : Bytes → Bytes → Bytes → Bytes
  gcmOpen : Bytes → Bytes → Bytes → Option Bytes

def sha256Size : Nat := 32

def gcmNonceSize : Nat := 12

def colon : UInt8 := 58

/-- `aes.NewCipher(secretKey)`, for what the helpers use of it: it fails on a key that is not
16, 24 or 32 bytes long. -/
def newCipher (secretKey : Bytes) : Except CookieError Unit :=
  if secretKey.length = 16 ∨ secretKey.length = 24 ∨ secretKey.length = 32 then .ok ()
  else .error (.keySize secretKey.length)

/-- `strings.Cut(s, sep)` for a separator of one byte. -/
def cut (s : Bytes) (sep : UInt8) : Bytes × Bytes × Bool :=
  match s.dropWhile (· != sep) with
  | [] => (s, [], false)
  | _ :: after => (s.takeWhile (· != sep), after, true)

def Lib.plain : Lib where
  encode := id
  decode := some
  mac k m := List.replicate sha256Size ((k ++ m).foldl (· + ·) 0)
  render c := c.key ++ c.value ++ c.rest
  gcmSeal _ _ p := p
  gcmOpen _ _ c := some c

section Helpers

variable (lib : Lib)

/-- `Write`: the cookie it sets on the response, its value base64-encoded. -/
def write (cookie : Cookie) : Except CookieError Cookie :=
  let cookie := { cookie with value := lib.encode cookie.value }
  if 4096 < (lib.render cookie).length then .error .valueTooLong else .ok cookie

/-- `Read`: the cookie `name` of a request whose cookies are `jar`. -/
def read (jar : Bytes → Option Bytes) (name : Bytes) : Except CookieError Bytes :=
  match jar name with
  | none => .error .noCookie
  | some cookieValue =>
    match lib.decode cookieValue with
    | none => .error .invalidValue
    | some value => .ok value

/-- `WriteSigned`. -/
def writeSigned (cookie : Cookie) (secretKey : Bytes) : Except CookieError Cookie :=
  let signature := lib.mac secretKey (cookie.key ++ cookie.value)
  write lib { cookie with value := signature ++ cookie.value }

/-- `ReadSigned`; `hmac.Equal` compares the bytes. -/
def readSigned (jar : Bytes → Option Bytes) (name secretKey : Bytes) :
    Except CookieError Bytes := do
  let signedValue ← read lib jar name
  if signedValue.length < sha256Size then throw .invalidValue
  let signature := signedValue.take sha256Size
  let value := signedValue.drop sha256Size
  let expectedSignature := lib.mac secretKey (name ++ value)
  if signature ≠ expectedSignature then throw .invalidValue
  return value

/-- `WriteEncrypted`, given the `gcmNonceSize` bytes read from `rand.Reader`. -/
def writeEncrypted (cookie : Cookie) (secretKey : Bytes) (random : Fin gcmNonceSize → UInt8) :
    Except CookieError Cookie := do
  newCipher secretKey
  let nonce := List.ofFn random
  let plaintext := cookie.key ++ colon :: cookie.value
  let encryptedValue := nonce ++ lib.gcmSeal secretKey nonce plaintext
  write lib { cookie with value := encryptedValue }

/-- `ReadEncrypted`. -/
def readEncrypted (jar : Bytes → Option Bytes) (name secretKey : Bytes) :
    Except CookieError Bytes := do
  let encryptedValue ← read lib jar name
  newCipher secretKey
  if encryptedValue.length < gcmNonceSize then throw .invalidValue
  let nonce := encryptedValue.take gcmNonceSize
  let ciphertext := encryptedValue.drop gcmNonceSize
  let some plaintext := lib.gcmOpen secretKey nonce ciphertext | throw .invalidValue
  let (expectedName, value, ok) := cut plaintext colon
  if !ok then throw .invalidValue
  if expectedName ≠ name then throw .invalidValue
  return value

end Helpers

section Cut

variable {s t : Bytes} {sep : UInt8}

theorem not_mem_cut_fst (s : Bytes) (sep : UInt8) : sep ∉ (cut s sep).1 := by
  unfold cut
  split
  · rename_i h
    exact fun hm => by simpa using List.dropWhile_eq_nil_iff.1 h sep hm
  · exact fun hm => by simpa using List.mem_takeWhile_imp hm

theorem cut_append (hs : sep ∉ s) : cut (s ++ sep :: t) sep = (s, t, true) := by
  have hp : ∀ a ∈ s, (a != sep) = true := fun a ha => by
    simpa using fun he : a = sep => hs (he ▸ ha)
  simp [cut, List.dropWhile_append_of_pos hp, List.takeWhile_append_of_pos hp]

end Cut

section Formats

variable {lib : Lib} {jar : Bytes → Option Bytes}

theorem write_eq_ok {cookie c : Cookie} (hw : write lib cookie = .ok c) :
    c = { cookie with value := lib.encode cookie.value } := by
  unfold write at hw
  dsimp only at hw
  split_ifs at hw
  cases hw
  rfl

theorem read_eq_ok_iff {name v : Bytes} :
    read lib jar name = .ok v ↔ ∃ raw, jar name = some raw ∧ lib.decode raw = some v := by
  unfold read
  rcases jar name with _ | raw
  · simp
  · rcases hd : lib.decode raw with _ | b <;> simp [hd]

theorem readSigned_of_read (hmac : ∀ k m, (lib.mac k m).length = sha256Size)
    {name secretKey v : Bytes} (hr : read lib jar name = .ok (lib.mac secretKey (name ++ v) ++ v)) :
    readSigned lib jar name secretKey = .ok v := by
  have hm := hmac secretKey (name ++ v)
  simp only [readSigned, hr, bind, Except.bind, List.length_append, hm, List.take_left' hm,
    List.drop_left' hm, ne_eq, not_true_eq_false, if_false, pure, Except.pure]
  rw [if_neg (by omega)]

/-- `ReadSigned` accepts for `name` exactly a cookie whose decoded bytes are the MAC of
`name ++ value` followed by `value`, and returns that value. -/
theorem readSigned_eq_ok_iff (hmac : ∀ k m, (lib.mac k m).length = sha256Size)
    {name secretKey v : Bytes} :
    readSigned lib jar name secretKey = .ok v ↔
      ∃ raw, jar name = some raw ∧ lib.decode raw = some (lib.mac secretKey (name ++ v) ++ v) := by
  rw [← read_eq_ok_iff]
  refine ⟨fun h => ?_, readSigned_of_read hmac⟩
  unfold readSigned at h
  cases hr : read lib jar name with
  | error e => simp [hr, bind, Except.bind] at h
  | ok b =>
    simp only [hr, bind, Except.bind, pure, Except.pure] at h
    split_ifs at h with hlen hsig
    cases h
    rw [← not_not.1 hsig, List.take_append_drop]

theorem readSigned_eq_ok_iff_plain :
    (∀ k m, (Lib.plain.mac k m).length = sha256Size) ∧
      (readSigned Lib.plain (fun _ => some (Lib.plain.mac [3] [2, 1] ++ [1])) [2] [3] = .ok [1] ↔
        ∃ raw, some (Lib.plain.mac [3] [2, 1] ++ [1]) = some raw ∧
          Lib.plain.decode raw = some (Lib.plain.mac [3] ([2] ++ [1]) ++ [1])) :=
  have hmac : ∀ k m, (Lib.plain.mac k m).length = sha256Size := fun _ _ =>
    List.length_replicate _ _
  ⟨hmac, readSigned_eq_ok_iff hmac⟩

/-- A client that sends back the cookie `WriteSigned` set gets its value from `ReadSigned`. -/
theorem readSigned_writeSigned (hcodec : ∀ b, lib.decode (lib.encode b) = some b)
    (hmac : ∀ k m, (lib.mac k m).length = sha256Size) {cookie c : Cookie} {secretKey : Bytes}
    (hw : writeSigned lib cookie secretKey = .ok c) (hjar : jar cookie.key = some c.value) :
    readSigned lib jar cookie.key secretKey = .ok cookie.value := by
  unfold writeSigned at hw
  rw [write_eq_ok hw] at hjar
  exact readSigned_of_read hmac (read_eq_ok_iff.2 ⟨_, hjar, hcodec _⟩)

theorem readSigned_writeSigned_ab_c :
    writeSigned Lib.plain ⟨[97, 98], [99], []⟩ [107] =
        .ok ⟨[97, 98], Lib.plain.mac [107] [97, 98, 99] ++ [99], []⟩ ∧
      readSigned Lib.plain (fun _ => some (Lib.plain.mac [107] [97, 98, 99] ++ [99])) [97, 98]
        [107] = .ok [99] :=
  have hw : writeSigned Lib.plain ⟨[97, 98], [99], []⟩ [107] =
      .ok ⟨[97, 98], Lib.plain.mac [107] [97, 98, 99] ++ [99], []⟩ := rfl
  ⟨hw, readSigned_writeSigned (fun _ => rfl) (fun _ _ => List.length_replicate _ _) hw rfl⟩

/-- One signature serves every split of the same bytes into a name and a value: from a cookie
`WriteSigned` issued for `name ++ value = name' ++ value'`, a client that does not know the key
builds one that `ReadSigned` accepts for `name'`, with the value `value'`. -/
theorem readSigned_forged (hcodec : ∀ b, lib.decode (lib.encode b) = some b)
    (hmac : ∀ k m, (lib.mac k m).length = sha256Size) {cookie c : Cookie}
    {secretKey name' value' : Bytes} (hw : writeSigned lib cookie secretKey = .ok c)
    (hsplit : cookie.key ++ cookie.value = name' ++ value') :
    readSigned lib
        (fun _ => some (lib.encode (((lib.decode c.value).getD []).take sha256Size ++ value')))
        name' secretKey = .ok value' := by
  unfold writeSigned at hw
  rw [write_eq_ok hw]
  refine readSigned_of_read hmac (read_eq_ok_iff.2 ⟨_, rfl, ?_⟩)
  dsimp only
  simp only [hcodec, Option.getD_some]
  rw [List.take_left' (hmac _ _), hsplit]

theorem readSigned_forged_ab_c :
    writeSigned Lib.plain ⟨[97, 98], [99], []⟩ [107] =
        .ok ⟨[97, 98], Lib.plain.mac [107] [97, 98, 99] ++ [99], []⟩ ∧
      readSigned Lib.plain
        (fun _ => some (Lib.plain.encode (((Lib.plain.decode
          (Lib.plain.mac [107] [97, 98, 99] ++ [99])).getD []).take sha256Size ++ [98, 99])))
        [97] [107] = .ok [98, 99] :=
  have hw : writeSigned Lib.plain ⟨[97, 98], [99], []⟩ [107] =
      .ok ⟨[97, 98], Lib.plain.mac [107] [97, 98, 99] ++ [99], []⟩ := rfl
  ⟨hw, readSigned_forged (fun _ => rfl) (fun _ _ => List.length_replicate _ _) hw rfl⟩

/-- A client that sends back the cookie `WriteEncrypted` set gets its value from
`ReadEncrypted` exactly when the name holds no `:`; otherwise the read fails. -/
theorem readEncrypted_writeEncrypted (hcodec : ∀ b, lib.decode (lib.encode b) = some b)
    (hopen : ∀ k n p, lib.gcmOpen k n (lib.gcmSeal k n p) = some p) {cookie c : Cookie}
    {secretKey : Bytes} {random : Fin gcmNonceSize → UInt8}
    (hw : writeEncrypted lib cookie secretKey random = .ok c)
    (hjar : jar cookie.key = some c.value) :
    readEncrypted lib jar cookie.key secretKey =
      if colon ∈ cookie.key then .error .invalidValue else .ok cookie.value := by
  unfold writeEncrypted at hw
  cases hk : newCipher secretKey with
  | error e => simp [hk, bind, Except.bind] at hw
  | ok u =>
    simp only [hk, bind, Except.bind] at hw
    rw [write_eq_ok hw] at hjar
    have hr := read_eq_ok_iff.2 ⟨_, hjar, hcodec _⟩
    have hn : (List.ofFn random).length = gcmNonceSize := List.length_ofFn _
    unfold readEncrypted
    simp only [hr, hk, bind, Except.bind, List.length_append, hn, List.take_left' hn,
      List.drop_left' hn, hopen]
    rw [if_neg (by omega)]
    by_cases hc : colon ∈ cookie.key
    · have hne := not_mem_cut_fst (cookie.key ++ colon :: cookie.value) colon
      rcases hcut : cut (cookie.key ++ colon :: cookie.value) colon with ⟨e, val, _ | _⟩
      · simp [hc, pure, Except.pure]
      · rw [hcut] at hne
        have : e ≠ cookie.key := fun he => hne (he ▸ hc)
        simp [hc, this, pure, Except.pure]
    · simp [hc, cut_append hc, pure, Except.pure]

theorem readEncrypted_writeEncrypted_colon :
    writeEncrypted Lib.plain ⟨[97, 58], [98], []⟩ (List.replicate 16 0) (fun _ => 0) =
        .ok ⟨[97, 58], List.ofFn (fun _ : Fin gcmNonceSize => (0 : UInt8)) ++ [97, 58, 58, 98], []⟩ ∧
      readEncrypted Lib.plain
        (fun _ => some (List.ofFn (fun _ : Fin gcmNonceSize => (0 : UInt8)) ++ [97, 58, 58, 98]))
        [97, 58] (List.replicate 16 0) =
        if colon ∈ [97, 58] then .error .invalidValue else .ok [98] :=
  have hw : writeEncrypted Lib.plain ⟨[97, 58], [98], []⟩ (List.replicate 16 0) (fun _ => 0) =
      .ok ⟨[97, 58], List.ofFn (fun _ : Fin gcmNonceSize => (0 : UInt8)) ++ [97, 58, 58, 98], []⟩ :=
    rfl
  ⟨hw, readEncrypted_writeEncrypted (fun _ => rfl) (fun _ _ _ => rfl) hw rfl⟩

example : readEncrypted Lib.plain
    (fun _ => some (List.ofFn (fun _ : Fin gcmNonceSize => (0 : UInt8)) ++ [97, 58, 58, 98]))
    [97, 58] (List.replicate 16 0) = .error .invalidValue := rfl

end Formats

end BuildingBlocks.Cookies
