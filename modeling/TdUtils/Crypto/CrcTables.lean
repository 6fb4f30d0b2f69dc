import TdUtils.Lib.Crc

/-!
# Crypto.CrcTables — CRC-64 and CRC-16 by tables

Both checks take the bytes one after the other and look up what a byte does to the register.  `crc64` is reflected and goes
between two complements, `crc16` is not reflected and starts with zero.  The characters of a string are signed; the table of
`crc16` is read with a register of 32 bits that is never masked.
-/

namespace TdUtils.CrcTables

open Lib Gf2 Crc

/-! ### The functions -/

/-- The polynomial of ECMA-182, the highest power first. -/
def ecma182 : BitVec 64 := 0x42f0e1eba9ea3693

def ccitt : BitVec 16 := 0x1021

def crc64Table : List (BitVec 64) := [
  0x0000000000000000, 0xb32e4cbe03a75f6f, 0xf4843657a840a05b, 0x47aa7ae9abe7ff34, 0x7bd0c384ff8f5e33,
  0xc8fe8f3afc28015c, 0x8f54f5d357cffe68, 0x3c7ab96d5468a107, 0xf7a18709ff1ebc66, 0x448fcbb7fcb9e309,
  0x0325b15e575e1c3d, 0xb00bfde054f94352, 0x8c71448d0091e255, 0x3f5f08330336bd3a, 0x78f572daa8d1420e,
  0xcbdb3e64ab761d61, 0x7d9ba13851336649, 0xceb5ed8652943926, 0x891f976ff973c612, 0x3a31dbd1fad4997d,
  0x064b62bcaebc387a, 0xb5652e02ad1b6715, 0xf2cf54eb06fc9821, 0x41e11855055bc74e, 0x8a3a2631ae2dda2f,
  0x39146a8fad8a8540, 0x7ebe1066066d7a74, 0xcd905cd805ca251b, 0xf1eae5b551a2841c, 0x42c4a90b5205db73,
  0x056ed3e2f9e22447, 0xb6409f5cfa457b28, 0xfb374270a266cc92, 0x48190ecea1c193fd, 0x0fb374270a266cc9,
  0xbc9d3899098133a6, 0x80e781f45de992a1, 0x33c9cd4a5e4ecdce, 0x7463b7a3f5a932fa, 0xc74dfb1df60e6d95,
  0x0c96c5795d7870f4, 0xbfb889c75edf2f9b, 0xf812f32ef538d0af, 0x4b3cbf90f69f8fc0, 0x774606fda2f72ec7,
  0xc4684a43a15071a8, 0x83c230aa0ab78e9c, 0x30ec7c140910d1f3, 0x86ace348f355aadb, 0x3582aff6f0f2f5b4,
  0x7228d51f5b150a80, 0xc10699a158b255ef, 0xfd7c20cc0cdaf4e8, 0x4e526c720f7dab87, 0x09f8169ba49a54b3,
  0xbad65a25a73d0bdc, 0x710d64410c4b16bd, 0xc22328ff0fec49d2, 0x85895216a40bb6e6, 0x36a71ea8a7ace989,
  0x0adda7c5f3c4488e, 0xb9f3eb7bf06317e1, 0xfe5991925b84e8d5, 0x4d77dd2c5823b7ba, 0x64b62bcaebc387a1,
  0xd7986774e864d8ce, 0x90321d9d438327fa, 0x231c512340247895, 0x1f66e84e144cd992, 0xac48a4f017eb86fd,
  0xebe2de19bc0c79c9, 0x58cc92a7bfab26a6, 0x9317acc314dd3bc7, 0x2039e07d177a64a8, 0x67939a94bc9d9b9c,
  0xd4bdd62abf3ac4f3, 0xe8c76f47eb5265f4, 0x5be923f9e8f53a9b, 0x1c4359104312c5af, 0xaf6d15ae40b59ac0,
  0x192d8af2baf0e1e8, 0xaa03c64cb957be87, 0xeda9bca512b041b3, 0x5e87f01b11171edc, 0x62fd4976457fbfdb,
  0xd1d305c846d8e0b4, 0x96797f21ed3f1f80, 0x2557339fee9840ef, 0xee8c0dfb45ee5d8e, 0x5da24145464902e1,
  0x1a083bacedaefdd5, 0xa9267712ee09a2ba, 0x955cce7fba6103bd, 0x267282c1b9c65cd2, 0x61d8f8281221a3e6,
  0xd2f6b4961186fc89, 0x9f8169ba49a54b33, 0x2caf25044a02145c, 0x6b055fede1e5eb68, 0xd82b1353e242b407,
  0xe451aa3eb62a1500, 0x577fe680b58d4a6f, 0x10d59c691e6ab55b, 0xa3fbd0d71dcdea34, 0x6820eeb3b6bbf755,
  0xdb0ea20db51ca83a, 0x9ca4d8e41efb570e, 0x2f8a945a1d5c0861, 0x13f02d374934a966, 0xa0de61894a93f609,
  0xe7741b60e174093d, 0x545a57dee2d35652, 0xe21ac88218962d7a, 0x5134843c1b317215, 0x169efed5b0d68d21,
  0xa5b0b26bb371d24e, 0x99ca0b06e7197349, 0x2ae447b8e4be2c26, 0x6d4e3d514f59d312, 0xde6071ef4cfe8c7d,
  0x15bb4f8be788911c, 0xa6950335e42fce73, 0xe13f79dc4fc83147, 0x521135624c6f6e28, 0x6e6b8c0f1807cf2f,
  0xdd45c0b11ba09040, 0x9aefba58b0476f74, 0x29c1f6e6b3e0301b, 0xc96c5795d7870f42, 0x7a421b2bd420502d,
  0x3de861c27fc7af19, 0x8ec62d7c7c60f076, 0xb2bc941128085171, 0x0192d8af2baf0e1e, 0x4638a2468048f12a,
  0xf516eef883efae45, 0x3ecdd09c2899b324, 0x8de39c222b3eec4b, 0xca49e6cb80d9137f, 0x7967aa75837e4c10,
  0x451d1318d716ed17, 0xf6335fa6d4b1b278, 0xb199254f7f564d4c, 0x02b769f17cf11223, 0xb4f7f6ad86b4690b,
  0x07d9ba1385133664, 0x4073c0fa2ef4c950, 0xf35d8c442d53963f, 0xcf273529793b3738, 0x7c0979977a9c6857,
  0x3ba3037ed17b9763, 0x888d4fc0d2dcc80c, 0x435671a479aad56d, 0xf0783d1a7a0d8a02, 0xb7d247f3d1ea7536,
  0x04fc0b4dd24d2a59, 0x3886b22086258b5e, 0x8ba8fe9e8582d431, 0xcc0284772e652b05, 0x7f2cc8c92dc2746a,
  0x325b15e575e1c3d0, 0x8175595b76469cbf, 0xc6df23b2dda1638b, 0x75f16f0cde063ce4, 0x498bd6618a6e9de3,
  0xfaa59adf89c9c28c, 0xbd0fe036222e3db8, 0x0e21ac88218962d7, 0xc5fa92ec8aff7fb6, 0x76d4de52895820d9,
  0x317ea4bb22bfdfed, 0x8250e80521188082, 0xbe2a516875702185, 0x0d041dd676d77eea, 0x4aae673fdd3081de,
  0xf9802b81de97deb1, 0x4fc0b4dd24d2a599, 0xfceef8632775faf6, 0xbb44828a8c9205c2, 0x086ace348f355aad,
  0x34107759db5dfbaa, 0x873e3be7d8faa4c5, 0xc094410e731d5bf1, 0x73ba0db070ba049e, 0xb86133d4dbcc19ff,
  0x0b4f7f6ad86b4690, 0x4ce50583738cb9a4, 0xffcb493d702be6cb, 0xc3b1f050244347cc, 0x709fbcee27e418a3,
  0x3735c6078c03e797, 0x841b8ab98fa4b8f8, 0xadda7c5f3c4488e3, 0x1ef430e13fe3d78c, 0x595e4a08940428b8,
  0xea7006b697a377d7, 0xd60abfdbc3cbd6d0, 0x6524f365c06c89bf, 0x228e898c6b8b768b, 0x91a0c532682c29e4,
  0x5a7bfb56c35a3485, 0xe955b7e8c0fd6bea, 0xaeffcd016b1a94de, 0x1dd181bf68bdcbb1, 0x21ab38d23cd56ab6,
  0x9285746c3f7235d9, 0xd52f0e859495caed, 0x6601423b97329582, 0xd041dd676d77eeaa, 0x636f91d96ed0b1c5,
  0x24c5eb30c5374ef1, 0x97eba78ec690119e, 0xab911ee392f8b099, 0x18bf525d915feff6, 0x5f1528b43ab810c2,
  0xec3b640a391f4fad, 0x27e05a6e926952cc, 0x94ce16d091ce0da3, 0xd3646c393a29f297, 0x604a2087398eadf8,
  0x5c3099ea6de60cff, 0xef1ed5546e415390, 0xa8b4afbdc5a6aca4, 0x1b9ae303c601f3cb, 0x56ed3e2f9e224471,
  0xe5c372919d851b1e, 0xa26908783662e42a, 0x114744c635c5bb45, 0x2d3dfdab61ad1a42, 0x9e13b115620a452d,
  0xd9b9cbfcc9edba19, 0x6a978742ca4ae576, 0xa14cb926613cf817, 0x1262f598629ba778, 0x55c88f71c97c584c,
  0xe6e6c3cfcadb0723, 0xda9c7aa29eb3a624, 0x69b2361c9d14f94b, 0x2e184cf536f3067f, 0x9d36004b35545910,
  0x2b769f17cf112238, 0x9858d3a9ccb67d57, 0xdff2a94067518263, 0x6cdce5fe64f6dd0c, 0x50a65c93309e7c0b,
  0xe388102d33392364, 0xa4226ac498dedc50, 0x170c267a9b79833f, 0xdcd7181e300f9e5e, 0x6ff954a033a8c131,
  0x28532e49984f3e05, 0x9b7d62f79be8616a, 0xa707db9acf80c06d, 0x14299724cc279f02, 0x5383edcd67c06036,
  0xe0ada17364673f59]

def crc16Table : List (BitVec 16) := [
  0x0000, 0x1021, 0x2042, 0x3063, 0x4084, 0x50a5, 0x60c6, 0x70e7, 0x8108, 0x9129, 0xa14a, 0xb16b, 0xc18c, 0xd1ad,
  0xe1ce, 0xf1ef, 0x1231, 0x0210, 0x3273, 0x2252, 0x52b5, 0x4294, 0x72f7, 0x62d6, 0x9339, 0x8318, 0xb37b, 0xa35a,
  0xd3bd, 0xc39c, 0xf3ff, 0xe3de, 0x2462, 0x3443, 0x0420, 0x1401, 0x64e6, 0x74c7, 0x44a4, 0x5485, 0xa56a, 0xb54b,
  0x8528, 0x9509, 0xe5ee, 0xf5cf, 0xc5ac, 0xd58d, 0x3653, 0x2672, 0x1611, 0x0630, 0x76d7, 0x66f6, 0x5695, 0x46b4,
  0xb75b, 0xa77a, 0x9719, 0x8738, 0xf7df, 0xe7fe, 0xd79d, 0xc7bc, 0x48c4, 0x58e5, 0x6886, 0x78a7, 0x0840, 0x1861,
  0x2802, 0x3823, 0xc9cc, 0xd9ed, 0xe98e, 0xf9af, 0x8948, 0x9969, 0xa90a, 0xb92b, 0x5af5, 0x4ad4, 0x7ab7, 0x6a96,
  0x1a71, 0x0a50, 0x3a33, 0x2a12, 0xdbfd, 0xcbdc, 0xfbbf, 0xeb9e, 0x9b79, 0x8b58, 0xbb3b, 0xab1a, 0x6ca6, 0x7c87,
  0x4ce4, 0x5cc5, 0x2c22, 0x3c03, 0x0c60, 0x1c41, 0xedae, 0xfd8f, 0xcdec, 0xddcd, 0xad2a, 0xbd0b, 0x8d68, 0x9d49,
  0x7e97, 0x6eb6, 0x5ed5, 0x4ef4, 0x3e13, 0x2e32, 0x1e51, 0x0e70, 0xff9f, 0xefbe, 0xdfdd, 0xcffc, 0xbf1b, 0xaf3a,
  0x9f59, 0x8f78, 0x9188, 0x81a9, 0xb1ca, 0xa1eb, 0xd10c, 0xc12d, 0xf14e, 0xe16f, 0x1080, 0x00a1, 0x30c2, 0x20e3,
  0x5004, 0x4025, 0x7046, 0x6067, 0x83b9, 0x9398, 0xa3fb, 0xb3da, 0xc33d, 0xd31c, 0xe37f, 0xf35e, 0x02b1, 0x1290,
  0x22f3, 0x32d2, 0x4235, 0x5214, 0x6277, 0x7256, 0xb5ea, 0xa5cb, 0x95a8, 0x8589, 0xf56e, 0xe54f, 0xd52c, 0xc50d,
  0x34e2, 0x24c3, 0x14a0, 0x0481, 0x7466, 0x6447, 0x5424, 0x4405, 0xa7db, 0xb7fa, 0x8799, 0x97b8, 0xe75f, 0xf77e,
  0xc71d, 0xd73c, 0x26d3, 0x36f2, 0x0691, 0x16b0, 0x6657, 0x7676, 0x4615, 0x5634, 0xd94c, 0xc96d, 0xf90e, 0xe92f,
  0x99c8, 0x89e9, 0xb98a, 0xa9ab, 0x5844, 0x4865, 0x7806, 0x6827, 0x18c0, 0x08e1, 0x3882, 0x28a3, 0xcb7d, 0xdb5c,
  0xeb3f, 0xfb1e, 0x8bf9, 0x9bd8, 0xabbb, 0xbb9a, 0x4a75, 0x5a54, 0x6a37, 0x7a16, 0x0af1, 0x1ad0, 0x2ab3, 0x3a92,
  0xfd2e, 0xed0f, 0xdd6c, 0xcd4d, 0xbdaa, 0xad8b, 0x9de8, 0x8dc9, 0x7c26, 0x6c07, 0x5c64, 0x4c45, 0x3ca2, 0x2c83,
  0x1ce0, 0x0cc1, 0xef1f, 0xff3e, 0xcf5d, 0xdf7c, 0xaf9b, 0xbfba, 0x8fd9, 0x9ff8, 0x6e17, 0x7e36, 0x4e55, 0x5e74,
  0x2e93, 0x3eb2, 0x0ed1, 0x1ef0]

/-- One turn of the loop of `crc64_partial`: the character is extended with its sign.  None is a place outside the table. -/
def crc64Turn (crc : BitVec 64) (c : UInt8) : Option (BitVec 64) :=
  (crc64Table[((crc ^^^ c.toBitVec.signExtend 64) &&& 0xff).toNat]?).map fun entry => entry ^^^ crc >>> 8

def crc64Partial (data : List UInt8) (crc : BitVec 64) : Option (BitVec 64) := data.foldlM crc64Turn crc

def crc64 (data : List UInt8) : Option (BitVec 64) := (crc64Partial data (-1)).map fun crc => crc ^^^ -1

/-- One turn of the loop of `crc16`. -/
def crc16Turn (crc : BitVec 32) (c : UInt8) : Option (BitVec 32) :=
  let t := (c.toBitVec.setWidth 32 ^^^ crc >>> 8) &&& 0xff
  (crc16Table[t.toNat]?).map fun entry => entry.setWidth 32 ^^^ crc <<< 8

def crc16 (data : List UInt8) : Option (BitVec 16) := (data.foldlM crc16Turn 0).map (BitVec.setWidth 16)

/-! ### The tables -/

theorem crc64Table_eq : crc64Table = (List.range 256).map fun i => (step ecma182.reverse)^[8] (BitVec.ofNat 64 i) := by
  -- the polynomial, the lowest power first
  have hreverse : ecma182.reverse = 0xc96c5795d7870f42 := by decide +kernel
  rw [hreverse]
  decide +kernel

theorem crc16Table_eq : crc16Table = (List.range 256).map fun i => (stepMsb ccitt)^[8] (BitVec.ofNat 16 i <<< 8) := by
  decide +kernel

/-! ### A turn of the loops -/

theorem toNat_and_255_lt {w : ℕ} (x : BitVec w) : (x &&& 255#w).toNat < 256 := by
  rw [BitVec.toNat_and]
  have h255 : (255#w).toNat ≤ 255 := by
    rw [BitVec.toNat_ofNat]
    exact Nat.mod_le _ _
  exact Nat.lt_succ_of_le (Nat.le_trans Nat.and_le_right h255)

/-- The sign of the character is masked away. -/
theorem index64_eq (crc : BitVec 64) (c : UInt8) :
    (crc ^^^ c.toBitVec.signExtend 64) &&& 0xff = (crc ^^^ BitVec.ofNat 64 c.toNat) &&& 255#64 := by
  change (crc ^^^ c.toBitVec.signExtend 64) &&& 255#64 = _
  apply BitVec.eq_of_getLsbD_eq
  intro i hi
  rw [BitVec.getLsbD_and, BitVec.getLsbD_and, BitVec.getLsbD_xor, BitVec.getLsbD_xor, getLsbD_255,
    BitVec.getLsbD_signExtend, BitVec.getLsbD_ofNat]
  by_cases hlow : i < 8
  · rw [decide_eq_true hi, if_pos hlow]
    rfl
  · simp [hlow]

theorem crc64Turn_eq (crc : BitVec 64) (c : UInt8) : crc64Turn crc c = some (byte ecma182.reverse crc c) := by
  have hlt := toNat_and_255_lt (crc ^^^ BitVec.ofNat 64 c.toNat)
  rw [crc64Turn, index64_eq, crc64Table_eq, List.getElem?_map, List.getElem?_range hlt, Option.map_some, Option.map_some,
    BitVec.ofNat_toNat, BitVec.setWidth_eq, byte_table]

/-- The index is taken from the bits that the check of 16 bits has. -/
theorem index16_eq (crc : BitVec 32) (c : UInt8) : (c.toBitVec.setWidth 32 ^^^ crc >>> 8) &&& (0xff : BitVec 32) =
    ((crc.setWidth 16 >>> 8 ^^^ BitVec.ofNat 16 c.toNat) &&& 255#16).setWidth 32 := by
  change (c.toBitVec.setWidth 32 ^^^ crc >>> 8) &&& 255#32 = _
  apply BitVec.eq_of_getLsbD_eq
  intro i hi
  rw [BitVec.getLsbD_and, BitVec.getLsbD_xor, BitVec.getLsbD_setWidth, BitVec.getLsbD_setWidth, BitVec.getLsbD_and,
    BitVec.getLsbD_xor, BitVec.getLsbD_ushiftRight, BitVec.getLsbD_ushiftRight, BitVec.getLsbD_setWidth, getLsbD_255,
    getLsbD_255, BitVec.getLsbD_ofNat, Bool.xor_comm]
  by_cases hlow : i < 8
  · have hin : 8 + i < 16 := by omega
    have hin' : i < 16 := by omega
    rw [decide_eq_true hi, decide_eq_true hin, decide_eq_true hin', decide_eq_true ⟨hi, hlow⟩, decide_eq_true ⟨hin', hlow⟩]
    rfl
  · simp [hlow]

/-- What is in the register above its 16 bits changes nothing in them. -/
theorem crc16Turn_eq (crc : BitVec 32) (c : UInt8) :
    ∃ crc', crc16Turn crc c = some crc' ∧ crc'.setWidth 16 = byteMsb ccitt (crc.setWidth 16) c := by
  let t := (crc.setWidth 16 >>> 8 ^^^ BitVec.ofNat 16 c.toNat) &&& 255#16
  have hlt : t.toNat < 256 := toNat_and_255_lt _
  have hturn : crc16Turn crc c = some (((stepMsb ccitt)^[8] (t <<< 8)).setWidth 32 ^^^ crc <<< 8) := by
    rw [crc16Turn, index16_eq, BitVec.toNat_setWidth_of_le (by decide), crc16Table_eq, List.getElem?_map, List.getElem?_range hlt,
      Option.map_some, Option.map_some, BitVec.ofNat_toNat, BitVec.setWidth_eq]
  refine ⟨_, hturn, ?_⟩
  rw [byteMsb_table ccitt (by decide), BitVec.setWidth_xor, BitVec.setWidth_shiftLeft_of_le (by decide),
    BitVec.setWidth_setWidth_of_le _ (by decide), BitVec.setWidth_eq]

/-! ### Strings -/

theorem crc64Partial_eq (data : List UInt8) (crc : BitVec 64) :
    crc64Partial data crc = some (register ecma182.reverse crc data) := by
  induction data generalizing crc with
  | nil => rfl
  | cons c data ih =>
    rw [crc64Partial, List.foldlM_cons, crc64Turn_eq]
    exact ih _

theorem crc16Loop_eq (data : List UInt8) (crc : BitVec 32) : (data.foldlM crc16Turn crc).map (BitVec.setWidth 16) =
    some (registerMsb ccitt (crc.setWidth 16) data) := by
  induction data generalizing crc with
  | nil => rfl
  | cons c data ih =>
    obtain ⟨crc', hturn, hlow⟩ := crc16Turn_eq crc c
    rw [List.foldlM_cons, hturn, registerMsb, List.foldl_cons, ← hlow]
    exact ih crc'

/-- **The checks by tables.**  No place outside a table is read, and for every string the checks are those that take one bit
after the other through the register: `crc64` with the reflected polynomial of ECMA-182 between two complements, `crc16`
with the polynomial `0x1021` from zero on. -/
theorem crc_eq_bitwise (data : List UInt8) : crc64 data = some (crc ecma182.reverse data) ∧
    crc16 data = some (registerMsb ccitt 0 data) := by
  refine ⟨?_, crc16Loop_eq data 0⟩
  rw [crc64, crc64Partial_eq, Option.map_some, crc, ← BitVec.xor_allOnes]
  rfl

/-- The check values of both. -/
example : crc64 [0x31, 0x32, 0x33, 0x34, 0x35, 0x36, 0x37, 0x38, 0x39] = some 0x995dc9bbdf1939fa ∧
    crc16 [0x31, 0x32, 0x33, 0x34, 0x35, 0x36, 0x37, 0x38, 0x39] = some 0x31c3 := by decide +kernel

end TdUtils.CrcTables
