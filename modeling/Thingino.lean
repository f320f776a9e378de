import Thingino.Agent.Authorization
import Thingino.Agent.CommandStatus
import Thingino.Agent.Daynight
import Thingino.Agent.Settings
import Thingino.Bluetooth.EventQueue
import Thingino.Bluetooth.Session
import Thingino.Crypto.Coherence
import Thingino.Crypto.GhashMemory
import Thingino.Crypto.Release
import Thingino.Crypto.StreamModes
import Thingino.Crypto.XtsCorrect
import Thingino.Daynightd.Dwell
import Thingino.Esphome.CommandRequest
import Thingino.Esphome.Levels
import Thingino.Esphome.Listener
import Thingino.Esphome.Pipeline
import Thingino.Esphome.Playback
import Thingino.Esphome.Switch
import Thingino.Esphome.Tell
import Thingino.Esphome.VoiceEvent
import Thingino.Esphome.WakeWord
import Thingino.Firmware.Upgrade
import Thingino.Ha.Cache
import Thingino.Ha.Commands
import Thingino.Ha.Daemon
import Thingino.Ha.Enabled
import Thingino.Ha.Quoting
import Thingino.Ha.Stale
import Thingino.Ha.State
import Thingino.Optics.Ircut
import Thingino.Optics.Light
import Thingino.Optics.Pins
import Thingino.Optics.Verified
import Thingino.Privacy.Guarded
import Thingino.Privacy.Lock
import Thingino.Privacy.Readers
import Thingino.Privacy.RoundTrip
import Thingino.Privacy.Store
import Thingino.Proxy.Delivery
import Thingino.Proxy.Descriptors
import Thingino.Proxy.Fifo
import Thingino.Proxy.Retry
import Thingino.Proxy.Upstream
import Thingino.Prudynt.AudioClock
import Thingino.Prudynt.Mailbox
import Thingino.Prudynt.Motion
import Thingino.Prudynt.Reconfig
import Thingino.Prudynt.Selfheal
import Thingino.Prudynt.Stall
import Thingino.Prudynt.StopDaemon
import Thingino.Scripts.RefusedCommit
import Thingino.Scripts.Substitution
import Thingino.Storage.Recordmgr
import Thingino.System.Certgen
import Thingino.System.Conf
import Thingino.System.ZoneRepair
import Thingino.Telegram.Menu
import Thingino.Telegram.Offset
import Thingino.Telegram.Reply
import Thingino.Watchdog.Budget
import Thingino.Watchdog.Probe
import Thingino.Watchdog.Wedge
import Thingino.Watchdog.World
import Thingino.Web.Cookie
import Thingino.Web.FileManager
import Thingino.Web.FileRange
import Thingino.Web.TrustedIp
import Thingino.System.Provisioning
