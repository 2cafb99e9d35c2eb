import HopDns.Spec.Decision
import HopDns.Spec.ZoneCorrect
import HopDns.Spec.ReplyShape
import HopDns.Spec.HandleCorrect
import HopDns.ForStd.Distinct
import HopDns.Spec.ReplyCorrect
import HopDns.Spec.QueryCorrect
import HopDns.Spec.NameCorrect
import HopDns.ForStd.DnsMessage
import HopDns.ForStd.DnsName
import HopDns.Native.Server
import HopDns.Native.Decode
import HopDns.Spec.OrderCorrect
import HopDns.Spec.AtRest
import HopDns.Spec.WatcherCorrect
import HopDns.Spec.AnswerCorrect
import HopDns.Spec.NameTree
import HopDns.Spec.Reread
import HopDns.Spec.BuilderCorrect
import HopDns.Spec.Rate
import HopDns.Spec.SeedFirst
import HopDns.Spec.RetryWait
import HopDns.Spec.CacheInvariant
import HopDns.Spec.LetterCase
import HopDns.Spec.JobRefresh
import HopDns.Spec.RefreshKept
import HopDns.Spec.QueryGrammar
import HopDns.Spec.EdnsScan
import HopDns.Spec.EncodeCorrect
import HopDns.Spec.PlainAnswer
import HopDns.Spec.WriterCorrect
import HopDns.Spec.SoaNames
import HopDns.Spec.ClusterView
import HopDns.Spec.CNAMEsCorrect
import HopDns.Spec.CNAMEZones
import HopDns.Spec.ReadEnds
import HopDns.Spec.ReadersAgree
import HopDns.Spec.RecordData
import HopDns.Spec.TableMap
import HopDns.Spec.CacheMap
import HopDns.Spec.NameText
import HopDns.Spec.FlagsCorrect
import HopDns.Spec.PeerURL
import HopDns.Spec.ConfigCorrect
import HopDns.Spec.Provenance
import HopDns.Spec.MailboxCorrect
import HopDns.Spec.MarkerCorrect
import HopDns.Spec.SelfTestCorrect
import HopDns.Spec.Federation
import HopDns.Spec.Settling
import HopDns.Spec.Causes
import HopDns.Spec.MainCorrect
import HopDns.Spec.NamesServed
import HopDns.Spec.GoCorrect
