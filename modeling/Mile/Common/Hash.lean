/-
  Mile.Common.Hash
  ────────────────
  **HASH VALUES** (`common/hash.c`).

  `get_hash_value` prints a number as text and hashes the text.  A value without bytes, or of type
  NULL, hashes like the empty string; missing bytes of a value read as zero.
-/
import Mile.Lib.CText
import Mile.Common.Def

namespace Mile.Common

open Lib

/-! ## §1. Strings. -/

/-- `CRYPT_TABLE`, the two 256-entry parts that are used. -/
def cryptTable : Array UInt32 :=
  #[
    0x55C636E2, 0x2BE0170, 0x584B71D4, 0x2984F00E, 0xB682C809, 0x91CF876B, 0x775A9C24, 0x597D5CA5,
    0x5A1AFEB2, 0xD3E9CE0D, 0x32CDCDF8, 0xB18201CD, 0x3CCE05CE, 0xA55D13BE, 0xBB0AFE71,
    0x9376AB33, 0x848F645E, 0x87E45A45, 0x45B86017, 0x5E656CA8, 0x1B851A95, 0x2542DBD7,
    0xAB4DF9E4, 0x5976AE9B, 0x6C317E7D, 0xCDDD2F94, 0x3C3C13E5, 0x335B1371, 0x31A592CA,
    0x51E4FC4C, 0xF7DB5B2F, 0x8ABDBE41, 0x8BEAA674, 0x20D6B319, 0xDE6C9A9D, 0xC5AC84E5,
    0x445A5FEB, 0x94958CB0, 0x1E7D3847, 0xF35D29B0, 0xCA5CCEDA, 0xB732C8B5, 0xFDCC41DD, 0xEDCEC16,
    0x9D01FEAE, 0x1165D38E, 0x9EE193C8, 0xBF33B13C, 0x61BC0DFC, 0xEF3E7BE9, 0xF8D4D4C5,
    0xC79B7694, 0x5A255943, 0xB3DD20A, 0x9D1AB5A3, 0xCFA8BA57, 0x5E6D7069, 0xCB89B731, 0x3DC0D15B,
    0xD4D7E7E, 0x97E37F2B, 0xFEFC2BB1, 0xF95B16B5, 0x27A55B93, 0x45F22729, 0x4C986630, 0x7C666862,
    0x5FA40847, 0xA3F16205, 0x791B7764, 0x386B36D6, 0x6E6C3FEF, 0xC75855DB, 0x4ABC7DC7,
    0x4A328F9B, 0xCEF20C0F, 0x60B88F07, 0xF7BB4B8F, 0x830B5192, 0x94F711EC, 0x20250752,
    0x399D21A3, 0xE5C0840D, 0xE76CFFA5, 0x624FAB29, 0x5DF133E6, 0x83E0B9B8, 0xC5796BFB,
    0x4A7AB2D0, 0xBA59A821, 0x3A81E4C, 0xCD3ADFDB, 0x32B26B8C, 0x8E35C533, 0x9E6300E9, 0x8CF92AC5,
    0x880D18EB, 0x131A53B3, 0x2ED2DC64, 0xB23257C1, 0xA06450C1, 0x1B92CB8E, 0x72ED730E,
    0x19A685F0, 0x82836483, 0x42D94E8A, 0xEE9BD6F6, 0x556D0B6A, 0xBA65589A, 0xDE24CCE4,
    0x53329F6C, 0xC754FE8B, 0x503D2DC7, 0x10027BA4, 0xD3B60A8B, 0x68E68D83, 0xA9128A9, 0x595FA35F,
    0xB03B5BE, 0x150A45C4, 0xB1629CCE, 0xE5F7497B, 0x8A7098A4, 0xB8233E69, 0x8EA0F978, 0x5B579970,
    0xEAB14318, 0x4B28B263, 0xB6766CEF, 0x6782877, 0x155C6DD0, 0xC711333C, 0xF819CEDF, 0xEB1D68,
    0xD6FFFA6E, 0x439E5962, 0xD765D6DB, 0xCB0BCEE9, 0x6D3C5647, 0x965466F3, 0xCA983C9, 0x74ECC1CE,
    0xFC0563B6, 0x42B08FEE, 0xC5B38853, 0xFE502CEB, 0x7B432FAF, 0xC309E610, 0x2C3997D8,
    0x43774654, 0x15BD9D2C, 0xED6A420D, 0xC7FF520C, 0xB8A97FD1, 0x5E4D60CC, 0xB9738D11,
    0xDA2181FF, 0x73AC2597, 0x3A8EEC8D, 0xAC85E779, 0xF3F975D6, 0xB9FE7B91, 0xF155D1E, 0x2860B6DD,
    0x835977CB, 0xB0607436, 0x9CAB7F6B, 0x8AB91186, 0xC12B51E9, 0x20084E8B, 0x44BA8EAD,
    0xA542B130, 0x82BCD5C4, 0xCC747F4E, 0xF1909D8, 0xDA242E1C, 0x6F7D1AA0, 0xD2626486, 0x88D0781E,
    0xAB695CCD, 0xFA569145, 0xB4FEB55C, 0xBE47E896, 0xE70A7A88, 0xD56185A2, 0xACF4C871, 0x9282332,
    0x1DDEEAA8, 0x590C7ADB, 0xF4A97667, 0xBFD85705, 0xEA77CCC, 0xA9F85364, 0x83195869, 0x8BFB041A,
    0xDB842F5C, 0xD6F0F315, 0xA7756EA7, 0xA51B439, 0xA9EDF8A3, 0xD9084E2F, 0x827407F8, 0xD4AC8284,
    0x9739D0D, 0xB3BB6CFC, 0xD539C77D, 0x6BBC9AC0, 0x35C641AA, 0x934C96B0, 0xD17AF317, 0x29C6BAEF,
    0xB275CDAC, 0xD72662DE, 0x9F5C2544, 0xC1A98F75, 0xD98E8F9A, 0x47BD5C86, 0x70C610A6,
    0xB5482ED4, 0x23B9C68C, 0x3C1BAE66, 0x69556E7F, 0xD902F5E0, 0x653D195B, 0xDE6541FB, 0x7BCC6AC,
    0xC6EE7788, 0x801534D4, 0x2C1F35C0, 0xD9DE614D, 0xBDCCAC85, 0xB4D4A0DA, 0x242D549B,
    0x9D964796, 0xB9CEB982, 0x59FA99A9, 0xD8986CC1, 0x9E90C1A1, 0x1BBD82F, 0xD7F1C5FD, 0xDD847EBA,
    0x883D305D, 0x25F13152, 0x4A92694D, 0x77F1E601, 0x8024E6E7, 0x2A5F53D, 0x9C3EF4D9, 0xAF403CCC,
    0xE2AD03C0, 0x46EDF6EC, 0x6F9BD3E6, 0xCC24AD7A, 0x47AFAB12, 0x82298DF7, 0x708C9EEC,
    0x76F8C1B1, 0xB39459D2, 0x3F1E26D9, 0xE1811BE7, 0x56ED1C4D, 0xC9D18AF8, 0xE828060E,
    0x91CADA2E, 0x5CCBF9B7, 0xF1A552D4, 0x3C9D4343, 0xE1008785, 0x2ADFEEBF, 0xF90240A0,
    0x3D08CCE7, 0x426E6FB0, 0x573C984F, 0x13A843AE, 0x406B7439, 0x636085D9, 0x5000BA9A,
    0xAD4A47AB, 0xAF001D8D, 0x419907AE, 0x185C8F96, 0xE5E9ED4D, 0x61764133, 0xD3703D97,
    0xAC98F0C6, 0xDBC3A37C, 0x85F010C4, 0x90491E32, 0xF12E18BF, 0xC88C96E1, 0xD3FBD6D9,
    0xE3C28B08, 0xD5BF08CC, 0xB1E78859, 0x2546DDCF, 0xB030B200, 0xAAFD2811, 0x55B22D21,
    0xD38BF567, 0x469C7A2B, 0x5AD05792, 0xA1A5981E, 0x7DFB8384, 0x34D1CA0A, 0x7EB0DBE0,
    0xD61CE0F6, 0x398068B7, 0xE6406D1F, 0x95AE6B47, 0xE4281230, 0xB0843061, 0xA70A3A68,
    0xE340F625, 0x72DCBFFD, 0x8EB8AFCD, 0x18B6661F, 0x17EF5A5C, 0xC5B22, 0x6BA13836, 0x6165E383,
    0x74481C5B, 0xE56F0711, 0xA26F5024, 0x5FF22E60, 0x31A5E829, 0xA1094BF0, 0xC680EC6C,
    0x8CF327D7, 0xEBF1348A, 0x6A227D2F, 0x74065184, 0x8DF65112, 0x2BBD05EE, 0xE4D00ED6,
    0x2980EE1A, 0x6AE1DA73, 0xE84614DA, 0x6C9906AB, 0xCF8E02DB, 0xD3723E97, 0x92F66CAF,
    0xAC8491C7, 0xAEC65696, 0xB98997CF, 0xFA16C762, 0x6D73C65F, 0x205D22A6, 0x4DD3AAA5,
    0x2DEB6BC0, 0x9F37686C, 0x71A5282B, 0x376BB9E0, 0x7FFF2A1B, 0xDE67982F, 0x9CBF33CE,
    0x2E6DAB37, 0x6E3424B9, 0xEE143BC, 0x832A60D9, 0xBB6329E1, 0x13F6BEFD, 0x5965FB84, 0xF60B233C,
    0x3D695183, 0x433224A1, 0xB5D9CAE5, 0x82459BAB, 0x9F21B311, 0xAF6C5247, 0xB447B13A,
    0x7B2676C3, 0xC38979CD, 0x8526AE25, 0xC550AD5B, 0x685099A7, 0x65E9C2BD, 0xE5C6DC36,
    0xE10B37A9, 0x88016878, 0xCE81D4E4, 0x24D6FC80, 0x4106152D, 0x6D4F5F90, 0xC4DC74BE,
    0xDB48676C, 0x6CB569B7, 0xF3BF598F, 0x42B08D9, 0x2CCB2DE, 0xB1056F65, 0x47994AF4, 0xFA141BA4,
    0x9376AB2E, 0x7A76737, 0x75E7E6FC, 0x449D80A1, 0x3B7259D, 0xF6DF358A, 0x5A75D5B9, 0x47286923,
    0x3B1A30EF, 0xEEBE3D6A, 0x9DB1AA00, 0x7A90D9, 0x24667071, 0x19C73CF, 0x69039BCD, 0x95900744,
    0x6518B1EB, 0x6905F202, 0xEE3951B2, 0xE141FCA9, 0x797FA832, 0x5A95E55B, 0xD6263B15,
    0x5B61F394, 0x897ACB1C, 0x5F83A9, 0x22420F71, 0xF495176E, 0x7E138F3D, 0x1392E384, 0x373BF7AA,
    0x8E512816, 0xA960B3CA, 0x474D74C, 0xFFACD6D7, 0x2EF5ED9E, 0x60992AAA, 0x7E690E99, 0x23C0749D,
    0xD8E29105, 0x555D5909, 0x15631BFE, 0xA69C5A1C, 0x501017CA, 0x99438048, 0x38733AC7,
    0xE682E2C8, 0xD4655FD6, 0x956E4C04, 0x347DF643, 0x2F4B177B, 0x93ED3AA4, 0xA77E1DD5,
    0x7AE55702, 0xD2A52FD9, 0xEF8BA18C, 0xB7D3C1EE, 0x8078BA8D, 0xAB5AAADB, 0x752BE08F, 0x68B31C1,
    0x78AAE3C, 0xAA5A8343, 0x123D9268, 0x2CEAEE43, 0x8EBDB239, 0x650251F3, 0x4883648, 0x8C62E12E,
    0x12B32167, 0xE5112E9A, 0x10002548, 0x3E7A818D, 0x77E5327, 0xF140CC21, 0x6CE7D75D, 0x9B99F9A5,
    0x3215741C, 0xB6AADBAE, 0x738768DC, 0x82A3742F, 0x76517020, 0xDD872AD8, 0x9D0902B2,
    0x7D1A6B04, 0x49381592, 0x63A652A5, 0xC15E626, 0xE22F70D6, 0x1E84385, 0xB29DE134, 0x20C5000E,
    0xE961F443, 0x2D31662E, 0x3CE6BC28, 0x34F9DD94, 0xFA45DE53, 0x497588BD, 0x9468215B, 0x777FA5C,
    0x6F7114C0, 0xE0E82694, 0xE4371986, 0x57112DE2, 0xE0CAC289, 0xF2A3CEE0, 0x6A41E1B9,
    0xBFCEA77D, 0xF927FD52, 0x69747D98, 0xBEA76CDB, 0x8DD39557, 0x4DB5ECE, 0x2A0885C8, 0x3BE4E8EE,
    0x21D785DC, 0x9DE7C0E, 0x3258EA33, 0x51922982, 0xEE8DD024
  ]

/-- `hashString(s, dwHashType)`. -/
def hashString (dwHashType : Nat) (s : Bytes) : UInt32 :=
  (s.foldl (fun (seeds : UInt32 × UInt32) c =>
    let cKey : UInt32 := c.toUInt32
    let seed1 := cryptTable.getD (dwHashType * 256 + c.toNat) 0 ^^^ (seeds.1 + seeds.2)
    (seed1, cKey + seed1 + seeds.2 + (seeds.2 <<< 5) + 3))
    (0x7FED7FED, 0xEEEEEEEE)).1

/-- `hashString64`. -/
def hashString64 (s : Bytes) : UInt64 :=
  ((hashString 0 s).toUInt64 <<< 32) ||| (hashString 1 s).toUInt64

def nullHash : UInt64 := hashString64 []

theorem nullHash_eq : nullHash = 0x7FED7FED7FED7FED := by decide

theorem nullHash_ne_zero : nullHash ≠ 0 := by rw [nullHash_eq]; decide

/-! ## §2. Printing numbers. -/

/-- The signed number of `w` bits with the given unsigned value. -/
def toSigned (w n : Nat) : Int := if n < 2 ^ (w - 1) then n else (n : Int) - 2 ^ w

/-- `printf("%d", n)`. -/
def printD (n : Int) : List Char :=
  if n < 0 then '-' :: printU n.natAbs else printU n.natAbs

def roundDiv (a b : Nat) : Nat :=
  let q := a / b
  let r := a % b
  if 2 * r < b then q
  else if 2 * r > b then q + 1
  else if q % 2 = 0 then q else q + 1

/-- `printf("%f", x)` for a binary floating point number with `mBits` mantissa
and `eBits` exponent bits, given as its bit pattern: six decimals, rounded to
even. -/
def printF (mBits eBits bits : Nat) : List Char :=
  let negative := 2 ^ (mBits + eBits) ≤ bits
  let sign := if negative then ['-'] else []
  let e := bits / 2 ^ mBits % 2 ^ eBits
  let m := bits % 2 ^ mBits
  if e = 2 ^ eBits - 1 then
    sign ++ (if m = 0 then ['i', 'n', 'f'] else ['n', 'a', 'n'])
  else
    let mant := if e = 0 then m else m + 2 ^ mBits
    -- the value is mant * 2 ^ (exp - bias)
    let exp := if e = 0 then 1 else e
    let bias := 2 ^ (eBits - 1) - 1 + mBits
    let micros := roundDiv (mant * 10 ^ 6 * 2 ^ (exp - bias)) (2 ^ (bias - exp))
    let decimals := printU (micros % 10 ^ 6)
    sign ++ printU (micros / 10 ^ 6) ++
      '.' :: (List.replicate (6 - decimals.length) '0' ++ decimals)

/-! ## §3. Hashing a printed number. -/

/-- `atoi`: the `long` that `strtol` parsed, cut to an `int`. -/
def atoi (s : List Char) : Int := toSigned 32 ((strtoll s % 2 ^ 32).toNat)

def splitSign (text : List Char) : Bool × List Char :=
  match text with
  | '-' :: rest => (true, rest)
  | rest => (false, rest)

def signKey (negative : Bool) (key : UInt64) : UInt64 :=
  if negative then ~~~key &&& 0x7FFFFFFFFFFFFFFF else key ||| 0x8000000000000000

/-- The text behind the first `c`, if there is one. -/
def behind (c : Char) (text : List Char) : Option (List Char) :=
  (text.dropWhile (· ≠ c)).tail?

/-- `get_hash` on the text of a number.  The digit checks of the floating
point branch never fail: `!ISNUM(c)` expands to `!c >= '0' && c <= '9'`. -/
def getHash (text : List Char) (type : FieldType) : UInt64 :=
  let (negative, value) := splitSign text
  if type = .float ∨ type = .double then
    let left := UInt64.ofInt (atoi value) <<< 32
    match (behind '.' value).or (behind ':' value) with
    | some right =>
      signKey negative (if right = [] then left else left ||| UInt64.ofInt (atoi right))
    | none => signKey negative left
  else signKey negative (UInt64.ofInt (strtoll value))

/-- `MAX_HASH_LEN`. -/
def maxHashLen : Nat := 128

/-- The text of a value fits `to_hash` with its NUL: `sprintf` does not check.  Only the text of a
`double`, of 1e120 or more, can be longer. -/
abbrev HashFits (data : LowData) : Prop :=
  data.len = 0 ∨ data.type ≠ .double ∨ (printF 52 11 (leAt data.data 0 8)).length < maxHashLen

/-- A function that hashes the value before it does anything else: it comes to nothing if
`get_hash_value` writes behind `to_hash`. -/
def hashing {α : Type} (data : LowData) (result : α) : Option α :=
  if HashFits data then some result else none

theorem hashing_eq_some {α : Type} {data : LowData} {result r : α} :
    hashing data result = some r ↔ HashFits data ∧ result = r := by
  unfold hashing
  split_ifs with hfit <;> simp [hfit]

/-- What `get_hash_value` returns, for a value that fits. -/
def getHashValue (data : LowData) : UInt64 :=
  if data.len = 0 ∨ data.type = .null then nullHash
  else
    match data.type with
    | .tiny => getHash (printD (toSigned 8 (leAt data.data 0 1))) .tiny
    | .short => getHash (printD (leAt data.data 0 2)) .short
    -- an `int16_t` printed with `%u`
    | .unsignedShort =>
      getHash (printU ((toSigned 16 (leAt data.data 0 2) % 2 ^ 32).toNat)) .unsignedShort
    | .long => getHash (printD (toSigned 32 (leAt data.data 0 4))) .long
    | .unsignedLong => getHash (printU (leAt data.data 0 4)) .unsignedLong
    | .longlong => getHash (printD (toSigned 64 (leAt data.data 0 8))) .longlong
    | .unsignedLonglong => getHash (printU (leAt data.data 0 8)) .unsignedLonglong
    | .float => getHash (printF 23 8 (leAt data.data 0 4)) .float
    | .double => getHash (printF 52 11 (leAt data.data 0 8)) .double
    | .string => hashString64 data.data
    | _ => 0xFFFFFFFFFFFFFFFF

/-! ## §4. What integers hash to. -/

theorem getHashValue_null {data : LowData} (h : data.len = 0) : getHashValue data = nullHash := by
  unfold getHashValue
  rw [if_pos (.inl h)]

theorem splitSign_printU (n : Nat) : splitSign (printU n) = (false, printU n) := by
  unfold splitSign
  split
  · next rest heq =>
      have hc := isDigit_of_mem_printU (n := n) (c := '-') (by rw [heq]; exact List.mem_cons_self)
      exact absurd rfl (isDigit_classes hc).2.1
  · rfl

def intKey (n : Int) : UInt64 :=
  signKey (n < 0) (UInt64.ofInt (min (2 ^ 63 - 1) (n.natAbs : Int)))

theorem getHash_printD (n : Int) {type : FieldType} (hf : type ≠ .float) (hd : type ≠ .double) :
    getHash (printD n) type = intKey n := by
  unfold getHash printD intKey
  by_cases hn : n < 0
  · rw [if_pos hn]
    simp only [splitSign, hf, hd, or_self, if_false, strtoll_printU_min, hn, decide_true]
  · rw [if_neg hn, splitSign_printU]
    simp only [hf, hd, or_self, if_false, strtoll_printU_min, hn, decide_false]

theorem getHashValue_longlong {data : LowData} (hlen : data.len ≠ 0)
    (htype : data.type = .longlong) :
    getHashValue data = intKey (toSigned 64 (leAt data.data 0 8)) := by
  unfold getHashValue
  rw [if_neg (by simp [hlen, htype]), htype]
  exact getHash_printD _ (by decide) (by decide)

end Mile.Common
