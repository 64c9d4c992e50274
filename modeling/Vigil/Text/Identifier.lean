import Vigil.Text.Alphanumeric

/-!
# Vigil.Text.Identifier — letters that begin and characters that go on with a name

A name may begin with a letter. The signs that only change a letter, such as
vowel signs, do not begin one, but most of them may stand inside it, as digits
and connecting marks may.

* `Text.isLetter` — a letter that stands for itself.
* `Text.continuesName` — what is no letter and still stands inside a name.
-/

namespace Vigil.Text

/-- Marks that spell and are no letters of their own: vowel signs, circled
letters. -/
def signRuns : List Nat := runs "
  BGfbBdnWeobbbcbcbbCulBwnbhqbDxheeccebBjbBeqDylDxcdjbdbeEcbCimdhguCcccpbcfdkcBddCghcccckbkcBddCgf
  ecccebBecdbldCgibdbcvcwdedCghccccjckcBebChfddbdkbBofCfhbdbdiclcBddCghbdbdiclcpbmeCghbdbdkbkcBdd
  CxgbbbiscCjbchsbDvbcgbcqbGhtjlbBkEgmbbcexeedbdchdenmbbkeCLocBecBecBecCotHgcBibEomejIofCfkcuCwcld
  BxfBwpCidBejccCflBytPwBiCOnCaDKgBgBTQaiBicNqbibxfDkcByqbbCfbBmfBcmBteBwmBlbCpombicBtdBybbdccfbBs
  ffbJdiBDZvbDEdfCMgdbcfeBEieCnbMjcCzdJzdCboBtcldBtjjbCjdBkmscCfdBwnocDojcbgbcbGbkxeCghcccckbkcDgj
  bbcbbebcDznbdEcsJdhchBdcDepbbEclDzoJxnJngbcccdbbbFmhcgebBckBqfbeslBuoHsiHribhDfwboEsgdbbcbdbbdb
  CofbcbeNkejcbbBwhddYYnrFJcbbCdheDpcBDAybNKjhbrchbcbfDwbCKhbcbhcfbWvbCZwBagBagBa"

/-- Whether a character is a letter that stands for itself. -/
def isLetter (c : Char) : Bool := isAlphabetic c && !inRuns signRuns c.toNat

/-- Accents and other marks, digits, connecting marks and joiners beyond ASCII. -/
def nameMarkRuns : List Nat := runs "
  GmbgbebccUbemofhbbbEzfbocJtfKfBtbbbcbcbbCulBwBfgbDxhcgccbeckxbBeBbDnlpkBhjjbyebjbdbfBrdChjBqybBg
  CdbbbeiebdhkcckrbCgbeeibucckobccCfbececcddbumdblcCfbefbcebucckkgbbCgbcbbeibhclccksbCjbmbykqbdbCd
  bbdfdbehclcckrbCgbcbgbfcucckqcCfceeibucckrbCubhdbbpkCnbchmibkDjbcjlhbkCkcgklbbbbbecBxobfbcflbBkj
  bDyebgbcccbkocedccefdenbcjbnbbBBbdBKkeBcdBdcBecCmcbhibcljbckBhdblEdcBibEodecjbgdkkEykCjccbCgbbhb
  bbbcigkclgkwBucmueBwbbfbbfbbblkrjmcBgecgckBsbbcdbbfCeiccikgkEozebgbcdHqCmRdbbdldndndncncBxctbEtn
  ebdmEOcdFlbDsBgVigEbeBSNbkCrbekBgcDccoxjcDzcEpbdbebzcfbFvckkgsnlBcjylbbBsdBwbcecccbpklbkkBvgcccc
  mbibdkBhdBybbdccfcbbBqcibDwbocErbcbdcckBDZgbBCjqqqdcydHkkBkdGgbUrbIsbFtfLhkCApdbcfeBodebGjcWbeik
  gkBffMfcCzgCslBxeEtbCcpBflcckdBxecchbBtkgdBkfbibkBzbmcCajbbieclDhdcegbcbGbbdifkgcCfcdbmbyhdfCsgn
  dbbocDhicdbbjkebDggbbecbcmkIiegcbcBbcDhicbbcpkDdbbbciikguCfbbbcebfekJljbcGjkDdeebmkEseccebBgkBog
  ceibjgcdBunbcHqbbdbbFhkCchbgbbqkCewchbcbcEsgdbbcbhbbikCccdbbbikCckKfclcCaffdnlHXtbgpQYymdnDMckDi
  kBmfChhzkUokSbbCleDdblcBDAxcGErkTyBucxUyddgiichBeeFsdCCnByTsCdeByibobwfbpCAihbrchbcbfDwbGehjkNsb
  CjoTeoJkcbkIybcbhcfbSghEfhfkHBakBSVGwJg"

/-- Whether a character that is no letter may stand inside a name: accents
(two of them in ASCII), digits, connecting marks and joiners. -/
def continuesName (c : Char) : Bool :=
  c.isDigit || c = '_' || c = '\x5e' || c = '\x60' || inRuns nameMarkRuns c.toNat

end Vigil.Text
