import BatchDualEx.Crypto.AESNI

/- `AES128`: the two key schedules, and one block encrypted and decrypted. -/
namespace BatchDualEx

namespace AES128

open AESNI

structure Key where
  mRoundKey : Vector Block 11

def expansion (key keyRcon : Block) : Block :=
  let keyRcon := mmShuffleEpi32 keyRcon 255
  let key := key ^^^ mmSlliSi128 key 4
  let key := key ^^^ mmSlliSi128 key 4
  let key := key ^^^ mmSlliSi128 key 4
  key ^^^ keyRcon

def encKeyGen (userKey : Block) : Key :=
  let k0 := userKey
  let k1 := expansion k0 (mmAeskeygenassistSi128 k0 0x01)
  let k2 := expansion k1 (mmAeskeygenassistSi128 k1 0x02)
  let k3 := expansion k2 (mmAeskeygenassistSi128 k2 0x04)
  let k4 := expansion k3 (mmAeskeygenassistSi128 k3 0x08)
  let k5 := expansion k4 (mmAeskeygenassistSi128 k4 0x10)
  let k6 := expansion k5 (mmAeskeygenassistSi128 k5 0x20)
  let k7 := expansion k6 (mmAeskeygenassistSi128 k6 0x40)
  let k8 := expansion k7 (mmAeskeygenassistSi128 k7 0x80)
  let k9 := expansion k8 (mmAeskeygenassistSi128 k8 0x1B)
  let k10 := expansion k9 (mmAeskeygenassistSi128 k9 0x36)
  ⟨#v[k0, k1, k2, k3, k4, k5, k6, k7, k8, k9, k10]⟩

def ecbEncBlock (key : Key) (src : Block) : Block :=
  let dest := src ^^^ key.mRoundKey[0]
  let dest := mmAesencSi128 dest key.mRoundKey[1]
  let dest := mmAesencSi128 dest key.mRoundKey[2]
  let dest := mmAesencSi128 dest key.mRoundKey[3]
  let dest := mmAesencSi128 dest key.mRoundKey[4]
  let dest := mmAesencSi128 dest key.mRoundKey[5]
  let dest := mmAesencSi128 dest key.mRoundKey[6]
  let dest := mmAesencSi128 dest key.mRoundKey[7]
  let dest := mmAesencSi128 dest key.mRoundKey[8]
  let dest := mmAesencSi128 dest key.mRoundKey[9]
  mmAesenclastSi128 dest key.mRoundKey[10]

def decKeyGen (userKey : Block) : Key :=
  let v0 := userKey
  let v1 := expansion v0 (mmAeskeygenassistSi128 v0 0x01)
  let v2 := expansion v1 (mmAeskeygenassistSi128 v1 0x02)
  let v3 := expansion v2 (mmAeskeygenassistSi128 v2 0x04)
  let v4 := expansion v3 (mmAeskeygenassistSi128 v3 0x08)
  let v5 := expansion v4 (mmAeskeygenassistSi128 v4 0x10)
  let v6 := expansion v5 (mmAeskeygenassistSi128 v5 0x20)
  let v7 := expansion v6 (mmAeskeygenassistSi128 v6 0x40)
  let v8 := expansion v7 (mmAeskeygenassistSi128 v7 0x80)
  let v9 := expansion v8 (mmAeskeygenassistSi128 v8 0x1B)
  let v10 := expansion v9 (mmAeskeygenassistSi128 v9 0x36)
  ⟨#v[v10, mmAesimcSi128 v9, mmAesimcSi128 v8, mmAesimcSi128 v7, mmAesimcSi128 v6,
    mmAesimcSi128 v5, mmAesimcSi128 v4, mmAesimcSi128 v3, mmAesimcSi128 v2, mmAesimcSi128 v1, v0]⟩

def ecbDecBlock (key : Key) (src : Block) : Block :=
  let dest := src ^^^ key.mRoundKey[0]
  let dest := mmAesdecSi128 dest key.mRoundKey[1]
  let dest := mmAesdecSi128 dest key.mRoundKey[2]
  let dest := mmAesdecSi128 dest key.mRoundKey[3]
  let dest := mmAesdecSi128 dest key.mRoundKey[4]
  let dest := mmAesdecSi128 dest key.mRoundKey[5]
  let dest := mmAesdecSi128 dest key.mRoundKey[6]
  let dest := mmAesdecSi128 dest key.mRoundKey[7]
  let dest := mmAesdecSi128 dest key.mRoundKey[8]
  let dest := mmAesdecSi128 dest key.mRoundKey[9]
  mmAesdeclastSi128 dest key.mRoundKey[10]

theorem ecbEncBlock_eq (k0 k1 k2 k3 k4 k5 k6 k7 k8 k9 k10 src : Block) :
    ecbEncBlock ⟨#v[k0, k1, k2, k3, k4, k5, k6, k7, k8, k9, k10]⟩ src =
      aesLayers.encrypt k0 [k1, k2, k3, k4, k5, k6, k7, k8, k9] k10 src := by
  simp [ecbEncBlock, RoundCipher.Layers.encrypt, RoundCipher.Layers.enc, aesLayers, mmAesencSi128,
    mmAesenclastSi128]

theorem ecbDecBlock_eq (k0 k1 k2 k3 k4 k5 k6 k7 k8 k9 k10 src : Block) :
    ecbDecBlock ⟨#v[k0, k1, k2, k3, k4, k5, k6, k7, k8, k9, k10]⟩ src =
      aesLayers.decrypt k0 [k1, k2, k3, k4, k5, k6, k7, k8, k9] k10 src := by
  simp [ecbDecBlock, RoundCipher.Layers.decrypt, RoundCipher.Layers.dec, aesLayers, mmAesdecSi128,
    mmAesdeclastSi128]

theorem keyGen_eq (userKey : Block) :
    ∃ v0 v1 v2 v3 v4 v5 v6 v7 v8 v9 v10,
      encKeyGen userKey = ⟨#v[v0, v1, v2, v3, v4, v5, v6, v7, v8, v9, v10]⟩ ∧
        decKeyGen userKey = ⟨#v[v10, mmAesimcSi128 v9, mmAesimcSi128 v8, mmAesimcSi128 v7,
          mmAesimcSi128 v6, mmAesimcSi128 v5, mmAesimcSi128 v4, mmAesimcSi128 v3, mmAesimcSi128 v2,
          mmAesimcSi128 v1, v0]⟩ :=
  ⟨_, _, _, _, _, _, _, _, _, _, _, rfl, rfl⟩

/-- Each block function inverts the other, for every key. -/
theorem ecbDecBlock_ecbEncBlock (userKey m : Block) :
    ecbDecBlock (decKeyGen userKey) (ecbEncBlock (encKeyGen userKey) m) = m ∧
      ecbEncBlock (encKeyGen userKey) (ecbDecBlock (decKeyGen userKey) m) = m := by
  obtain ⟨v0, v1, v2, v3, v4, v5, v6, v7, v8, v9, v10, enc, dec⟩ := keyGen_eq userKey
  rw [enc, dec, ecbEncBlock_eq, ecbDecBlock_eq, ecbDecBlock_eq, ecbEncBlock_eq]
  constructor
  · exact aesLayers.decrypt_encrypt v0 [v1, v2, v3, v4, v5, v6, v7, v8, v9] v10 m
  · exact aesLayers.encrypt_decrypt v0 [v1, v2, v3, v4, v5, v6, v7, v8, v9] v10 m

-- The key has the bytes 0x00, 0x01, ..., 0x0F, the message 0x00, 0x11, ..., 0xFF.
example : ecbEncBlock (encKeyGen 0x0F0E0D0C0B0A09080706050403020100)
    0xFFEEDDCCBBAA99887766554433221100 = 0x5AC5B47080B7CDD830047B6AD8E0C469 := by decide +kernel

end AES128

end BatchDualEx
