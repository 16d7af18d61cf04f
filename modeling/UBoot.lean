import UBoot.EnvMmc
import UBoot.EnvSharedNand
import UBoot.LmbRuns
import UBoot.DefragOrder
import UBoot.Pll
import UBoot.HwinfoBoot
import UBoot.TftpGet
import UBoot.TftpPut
import UBoot.GptSafe
import UBoot.RsaPow
import UBoot.ClonerBurn
import UBoot.MtdpartsRoundTrip
import UBoot.NfsLoad
import UBoot.HexportRoom
import UBoot.EnvFlagsOrder
import UBoot.CommandList
import UBoot.CommandText
import UBoot.LineEditSafe
import UBoot.DnsAnswers
import UBoot.DhcpLease
import UBoot.GptTabAgree
import UBoot.FwSetenv
import UBoot.HashtableMatch
import UBoot.HexportCanonical
import UBoot.HimportSafe
import UBoot.HwinfoBounds
import UBoot.SysDiv
import UBoot.ClkRate
import UBoot.NandErase
import UBoot.NandResults
import UBoot.NetFrames
import UBoot.DnsReads
